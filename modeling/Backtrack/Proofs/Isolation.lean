import Backtrack.Proofs.Landing
import Backtrack.Proofs.Sink.Labelled
import Mathlib.Data.List.Forall2

/-!
# Runs and the sink

A library-built parser takes one look at the sink: a label counts what the labelled parser has
added. The count depends on what was there before only where the label is not kept (`label_add`).

So two runs that start with different sinks return the same, and gain the same. `Apart b₁ b₂`
relates states whose sinks are `b₁` and `b₂`, each merged with one common gain, and every
library-built parser keeps it (`Parser.run_simulates`). The second run may have a larger bound on
its depth. What follows: a larger bound does not change a result (`Parser.run_mono`); a run from any
state is the run from an empty sink, with the sinks merged (`Parser.run_map_sink`); and alternatives
that all fail leave what each of them leaves alone (`Parser.failsAlone_of_either`,
`Parsers.failsAlone_of_firstOf`).
-/

namespace Backtrack

variable {σ ι : Type} {τ : ι → Type} {α β ν : Type}

open Act

/-! ## Two sinks with one gain -/

/-- What two runs have gained since their sinks were `b₁` and `b₂` is the same, and its labels
count right. -/
def Apart (b₁ b₂ : Sink) (s t : State) : Prop :=
  ∃ own : Sink, Labelled own.records ∧ s.sink = b₁.merge own ∧ t.sink = b₂.merge own

section Steps

variable {b₁ b₂ : Sink} {pos : Nat} {a b : Act α}

theorem apart_base (s t : State) : Apart s.sink t.sink s t :=
  ⟨.empty, .nil, by rw [Sink.merge_empty], by rw [Sink.merge_empty]⟩

namespace Act.Simulates

theorem plainly_apart : Plainly (Apart b₁ b₂) := by
  rintro i r - hr s t ⟨own, hown, hs, ht⟩ _ s' hrun
  cases hrun
  refine ⟨_, rfl, own.add i r, Sink.labelled_add hown hr, ?_, ?_⟩
  · dsimp only
    rw [hs, Sink.merge_add]
  · dsimp only
    rw [ht, Sink.merge_add]

theorem build (id : Nat) : Simulates (Apart b₁ b₂) (Act.build id) (Act.build id) := by
  intro s t hst _ s' hrun
  cases hrun
  exact ⟨_, rfl, hst⟩

theorem isolated (h : Simulates (Apart .empty .empty) a b) :
    Simulates (Apart b₁ b₂) (Act.isolated a) (Act.isolated b) := by
  intro s t hst x s' hrun
  obtain ⟨u, ha, rfl⟩ := isolated_eq_some.mp hrun
  obtain ⟨u', hb, -⟩ := h _ { t with sink := .empty, entries := [] } ⟨.empty, .nil, rfl, rfl⟩ x u ha
  exact ⟨_, isolated_eq_some.mpr ⟨u', hb, rfl⟩, hst⟩

end Act.Simulates

/-- What a part does from any state it does alone, from an empty sink. -/
theorem alone_of_run (hab : ∀ b₁ b₂, Simulates (Apart b₁ b₂) a b) {s t : State} {x : α}
    (hrun : a s = some (x, t)) : ∃ u, b {} = some (x, u) ∧ Labelled u.sink.records ∧
      t.sink = s.sink.merge u.sink := by
  obtain ⟨u, hu, own, hown, ht, hown'⟩ := hab s.sink .empty s {} (apart_base s {}) x t hrun
  rw [Sink.empty_merge] at hown'
  exact ⟨u, hu, hown' ▸ hown, hown' ▸ ht⟩

/-- What a part does alone it does from any state. -/
theorem run_of_alone (hab : ∀ b₁ b₂, Simulates (Apart b₁ b₂) a b) {u : State} {x : α}
    (hrun : a {} = some (x, u)) (s : State) :
    ∃ t, b s = some (x, t) ∧ t.sink = s.sink.merge u.sink := by
  obtain ⟨t, ht, own, -, hu, hown⟩ := hab .empty s.sink {} s (apart_base {} s) x u hrun
  rw [Sink.empty_merge] at hu
  exact ⟨t, ht, hu ▸ hown⟩

end Steps

section Blocks

variable {law : BlockLaw σ τ} {R : State → State → Prop} {call call' : Call σ τ}
  {m n : Nat}

theorem Block.exec_simulates (src : Source σ) (cfg : Config) (hmn : m ≤ n)
    (hcall : ∀ {β : Type} (p : Parser σ τ β), p.BuiltFrom law → ∀ q,
      Simulates R (call p q) (call' p q)) :
    ∀ {ν α : Type} (body : Block σ τ ν α), body.BuiltFrom law → ∀ (pos : Nat) (v : ν),
      Simulates R (body.exec call src cfg m pos v) (body.exec call' src cfg n pos v)
  | _, _, .ret a, _, pos, v => by
    rw [exec, exec]
    exact .pure _
  | _, _, .abort e, _, pos, v => by
    rw [exec, exec]
    exact .pure _
  | _, _, .perform p allowPartial next, hb, pos, v => by
    rw [exec, exec]
    refine (hcall p hb.1 pos).bind fun r => ?_
    cases r with
    | ok q a => exact exec_simulates src cfg hmn hcall (next (.ok a)) (hb.2 _) q v
    | fail q => exact exec_simulates src cfg hmn hcall (next (.error _)) (hb.2 _) pos v
  | _, _, .many p next, hb, pos, v => by
    rw [exec, exec]
    refine (Simulates.manyLoop (hcall p hb.1) hmn none pos).bind fun r => ?_
    exact exec_simulates src cfg hmn hcall (next r.1) (hb.2 _) r.2 v
  | _, _, .attempt body next, hb, pos, v => by
    rw [exec, exec]
    refine (exec_simulates src cfg hmn hcall body hb.1 pos v).bind fun r => ?_
    obtain ⟨r, q, w⟩ := r
    cases r with
    | ok a => exact exec_simulates src cfg hmn hcall (next (some a)) (hb.2 _) q w
    | error e => exact exec_simulates src cfg hmn hcall (next none) (hb.2 _) _ w
  | _, _, .loop body next, hb, pos, v => by
    rw [exec, exec]
    have hpass := fun q w => exec_simulates src cfg hmn hcall body hb.1 q w
    refine (Simulates.passLoop hpass hmn pos v).bind fun r => ?_
    exact exec_simulates src cfg hmn hcall next hb.2 r.1 r.2
  | _, _, .position next, hb, pos, v => by
    rw [exec, exec]
    exact exec_simulates src cfg hmn hcall (next pos) (hb _) pos v
  | _, _, .ask next, hb, pos, v => by
    rw [exec, exec]
    exact exec_simulates src cfg hmn hcall (next src cfg) (hb _ _) pos v
  | _, _, .get next, hb, pos, v => by
    rw [exec, exec]
    exact exec_simulates src cfg hmn hcall (next v) (hb _) pos v
  | _, _, .set w next, hb, pos, v => by
    rw [exec, exec]
    exact exec_simulates src cfg hmn hcall next hb pos w
  | _, _, .inspect _, hb, _, _ => hb.elim
  | _, _, .register .., hb, _, _ => hb.elim

end Blocks

section Parsers

variable [BEq σ] [Describe σ] {env : Env σ τ}

/-- What a label makes of the sink of the labelled parser: if the parser fails, a label with all
records of the sink. -/
def Sink.afterLabel (pos : Nat) (name : String) (u : Sink) : Outcome α → Sink
  | .ok .. => u
  | .fail _ => u.add pos (some (.label pos u.records.length name))

section Label

variable {m n pos : Nat} {s u : State} {r : Outcome α} {p : Parser σ τ α}

/-- A label, in terms of the run of the labelled parser alone. -/
theorem Parser.label_run_of_alone (hpos : u.sink.NotBefore pos)
    (hsim : ∀ b₁ b₂, Simulates (Apart b₁ b₂) (p.run env m pos) (p.run env n pos))
    (hrun : p.run env m pos {} = some (r, u)) (name : String) (t : State) :
    ∃ t', (label p name).run env (n + 1) pos t = some (r, t') ∧
      t'.sink = t.sink.merge (u.sink.afterLabel pos name r) := by
  obtain ⟨t', ht', hsink⟩ := run_of_alone hsim hrun t
  rw [run]
  cases r with
  | ok q a => exact ⟨t', bind_eq_some.mpr ⟨_, _, rfl, bind_eq_some.mpr ⟨_, _, ht', rfl⟩⟩, hsink⟩
  | fail q =>
    refine ⟨_, bind_eq_some.mpr ⟨_, _, rfl, bind_eq_some.mpr ⟨_, _, ht', rfl⟩⟩, ?_⟩
    dsimp only
    rw [hsink]
    exact Sink.label_add hpos name

/-- The sink of a library-built parser alone lies where the parser started or beyond. -/
theorem Parser.notBefore_of_alone (henv : env.LibraryBuilt) (hp : p.LibraryBuilt)
    (hrun : p.run env n pos {} = some (r, u)) : u.sink.NotBefore pos := by
  obtain ⟨⟨es, -, hsink, hes⟩, -⟩ := run_forward henv hp hrun
  rw [hsink, Sink.empty_merge]
  exact Sink.notBefore_ofEntries hes

/-- Whatever was in the sink before, the label that is kept has all records that the labelled parser
has alone. -/
theorem Parser.alone_of_label_run (henv : env.LibraryBuilt) (hp : p.LibraryBuilt)
    (hsim : ∀ b₁ b₂, Simulates (Apart b₁ b₂) (p.run env n pos) (p.run env n pos))
    {name : String} {t : State} (hrun : (label p name).run env (n + 1) pos s = some (r, t)) :
    ∃ u, p.run env n pos {} = some (r, u) ∧ Labelled u.sink.records ∧
      t.sink = s.sink.merge (u.sink.afterLabel pos name r) := by
  have hrun' := hrun
  rw [run] at hrun'
  obtain ⟨_, _, hcurrent, hrun'⟩ := bind_eq_some.mp hrun'
  cases hcurrent
  obtain ⟨r', s', hs', hrest⟩ := bind_eq_some.mp hrun'
  obtain ⟨u, hu, hlab, -⟩ := alone_of_run hsim hs'
  have hpos := notBefore_of_alone henv hp hu
  obtain ⟨t', ht', hsink⟩ := label_run_of_alone hpos hsim hu name s
  rw [hrun] at ht'
  cases ht'
  exact ⟨u, hu, hlab, hsink⟩

theorem Sink.labelled_afterLabel {u : Sink} (hu : Labelled u.records)
    (hpos : u.NotBefore pos) (name : String) (r : Outcome α) :
    Labelled (u.afterLabel pos name r).records := by
  cases r with
  | ok q a => exact hu
  | fail q => exact labelled_add_label hu hpos name

theorem Parser.label_simulates (henv : env.LibraryBuilt) (hp : p.LibraryBuilt)
    (hself : ∀ b₁ b₂, Simulates (Apart b₁ b₂) (p.run env m pos) (p.run env m pos))
    (hsim : ∀ b₁ b₂, Simulates (Apart b₁ b₂) (p.run env m pos) (p.run env n pos))
    (name : String) (b₁ b₂ : Sink) :
    Simulates (Apart b₁ b₂) ((label p name).run env (m + 1) pos)
      ((label p name).run env (n + 1) pos) := by
  rintro s t ⟨own, hown, hs, ht⟩ r s' hrun
  obtain ⟨u, hu, hlab, hsink⟩ := alone_of_label_run henv hp hself hrun
  have hpos := notBefore_of_alone henv hp hu
  obtain ⟨t', ht', hsink'⟩ := label_run_of_alone hpos hsim hu name t
  refine ⟨t', ht', own.merge (u.sink.afterLabel pos name r), ?_, ?_, ?_⟩
  · exact Sink.labelled_merge hown (Sink.labelled_afterLabel hlab hpos name r)
  · rw [hsink, hs, Sink.merge_assoc]
  · rw [hsink', ht, Sink.merge_assoc]

end Label

/-- One case for each kind of parser, by induction on the bound. -/
theorem Parser.run_simulates (henv : env.LibraryBuilt) {m n : Nat} (hmn : m ≤ n)
    (p : Parser σ τ α) (hp : p.LibraryBuilt) (pos : Nat) (b₁ b₂ : Sink) :
    Simulates (Apart b₁ b₂) (p.run env m pos) (p.run env n pos) := by
  induction m generalizing α n p pos b₁ b₂ with
  | zero => exact .exceeded
  | succ m ih =>
    obtain ⟨n, rfl⟩ := Nat.exists_eq_add_of_le' (Nat.lt_of_lt_of_le m.succ_pos hmn)
    have hmn : m ≤ n := Nat.le_of_succ_le_succ hmn
    cases p with
    | pure a => exact .pure _
    | fail what =>
      cases what with
      | none => exact .mismatch .plainly_apart pos
      | some what => exact .failWith .plainly_apart rfl pos
    | any => exact .symbolWhere (.mismatch .plainly_apart pos) pos
    | eoi =>
      rw [run, run]
      split
      · exact .pure _
      · exact .failWith .plainly_apart rfl pos
    | el x => exact .symbolWhere (.failWith .plainly_apart rfl pos) pos
    | oneOf set => exact .symbolWhere (.expectEach .plainly_apart _ pos) pos
    | noneOf set => exact .symbolWhere (.mismatch .plainly_apart pos) pos
    | satisfy pred => exact .symbolWhere (.mismatch .plainly_apart pos) pos
    | literal pattern =>
      rw [run, run]
      split
      · exact .pure _
      · exact .failWith .plainly_apart rfl pos
    | charWith pred => exact .charWhere .plainly_apart _ pos pred
    | regexGroup re i => exact .regexWhere .plainly_apart _ re pos _
    | regexGroups re => exact .regexWhere .plainly_apart _ re pos _
    | covered p =>
      rw [run, run]
      refine (Simulates.isolated (ih hmn p hp pos _ _)).bind fun r => ?_
      cases r with
      | fail q => exact .mismatch .plainly_apart pos
      | ok q a =>
        dsimp only
        split
        · exact .pure _
        · exact .mismatch .plainly_apart pos
    | map p f =>
      rw [run, run]
      exact (ih hmn p hp pos _ _).bind fun r => .pure _
    | flatMap p next =>
      rw [run, run]
      refine (ih hmn p hp.1 pos _ _).bind fun r => ?_
      cases r with
      | fail q => exact .pure _
      | ok q a => exact ih hmn (next a) (hp.2 a) q _ _
    | andMap p q f =>
      rw [run, run]
      refine (ih hmn p hp.1 pos _ _).bind fun r => ?_
      cases r with
      | fail q => exact .pure _
      | ok e a => exact (ih hmn q hp.2 e _ _).bind fun r => .pure _
    | between p pre post =>
      rw [run, run]
      refine (ih hmn pre hp.2.1 pos _ _).bind fun r => ?_
      cases r with
      | fail q => exact .pure _
      | ok e _ =>
        refine (ih hmn p hp.1 e _ _).bind fun r => ?_
        cases r with
        | fail q => exact .pure _
        | ok e a => exact (ih hmn post hp.2.2 e _ _).bind fun r => .pure _
    | either p q =>
      rw [run, run]
      refine (ih hmn p hp.1 pos _ _).bind fun r => ?_
      cases r with
      | ok e a => exact .pure _
      | fail _ =>
        refine (ih hmn q hp.2 pos _ _).bind fun r => ?_
        cases r with
        | ok e a => exact .pure _
        | fail e => exact .pure _
    | choice ps =>
      cases ps with
      | nil =>
        rw [run, run]
        exact (Simulates.registerNone .plainly_apart pos).bind fun _ => .pure _
      | cons p ps =>
        rw [run, run]
        exact .firstOf _ (fun p' hp' q => ih hmn p' (Parsers.BuiltFrom.of_mem hp p' hp') q _ _) pos
    | option p default =>
      rw [run, run]
      refine (ih hmn p hp pos _ _).bind fun r => ?_
      cases r with
      | ok e a => exact .pure _
      | fail _ => exact .pure _
    | opt p =>
      rw [run, run]
      refine (ih hmn p hp pos _ _).bind fun r => ?_
      cases r with
      | ok e a => exact .pure _
      | fail _ => exact .pure _
    | seq ps allowPartial =>
      rw [run, run]
      exact .inOrder _ _ (fun p' hp' q => ih hmn p' (Parsers.BuiltFrom.of_mem hp p' hp') q _ _) pos
    | many p bounds =>
      rw [run, run]
      have hloop := Simulates.manyLoop (fun q => ih hmn p hp q b₁ b₂) hmn bounds.max pos
      exact hloop.bind fun r => .atLeast .plainly_apart _ _ _ _
    | manyAccum p init f bounds =>
      rw [run, run]
      have hloop := Simulates.foldLoop (fun q => ih hmn p hp q b₁ b₂) f hmn bounds.max init 0 pos
      exact hloop.bind fun r => .atLeast .plainly_apart _ _ _ _
    | sepBy p sep bounds =>
      rw [run, run]
      split
      · exact .atLeast .plainly_apart _ _ _ _
      · refine (ih hmn p hp.1 pos _ _).bind fun r => ?_
        cases r with
        | fail _ => exact .atLeast .plainly_apart _ _ _ _
        | ok q a =>
          have hloop := Simulates.sepLoop (fun q => ih hmn p hp.1 q b₁ b₂)
            (fun q => ih hmn sep hp.2 q b₁ b₂) hmn (bounds.max.map (· - 1)) q
          exact hloop.bind fun r => .atLeast .plainly_apart _ _ _ _
    | lookAhead p =>
      rw [run, run]
      refine (ih hmn p hp pos _ _).bind fun r => ?_
      cases r with
      | ok e a => exact .pure _
      | fail q => exact .pure _
    | notFollowedBy p =>
      rw [run, run]
      refine (ih hmn p hp pos _ _).bind fun r => ?_
      cases r with
      | ok e a => exact .mismatch .plainly_apart pos
      | fail q => exact .pure _
    | label p name =>
      have hself := ih (Nat.le_refl m) p hp pos
      exact label_simulates (p := p) henv hp hself (ih hmn p hp pos) name b₁ b₂
    | recognize p =>
      rw [run, run]
      refine (ih hmn p hp pos _ _).bind fun r => ?_
      cases r with
      | ok e a => exact .pure _
      | fail q => exact .pure _
    | lazy id p =>
      rw [run, run]
      exact (Simulates.build id).bind fun _ => ih hmn p hp pos _ _
    | rule i =>
      rw [run, run]
      split
      · next p hrule => exact ih hmn p (henv i p hrule) pos _ _
      · exact .mismatch .plainly_apart pos
    | block init body =>
      rw [run, run]
      have hbody := Block.exec_simulates env.source env.config hmn
        (fun p hp q => ih hmn p hp q b₁ b₂) body hp.1 pos init
      refine hbody.bind fun r => ?_
      obtain ⟨r, q, w⟩ := r
      cases r with
      | ok a => exact .pure _
      | error e => exact .pure _
    | function body => exact hp.elim

/-! ## Every parser alone -/

variable {p : Parser σ τ α}

/-- A larger bound does not change the result of a library-built parser. -/
theorem Parser.run_mono (henv : env.LibraryBuilt) (hp : p.LibraryBuilt) {m n pos : Nat}
    (hmn : m ≤ n) {s t : State} {r : Outcome α} (hrun : p.run env m pos s = some (r, t)) :
    ∃ t', p.run env n pos s = some (r, t') ∧ t'.sink = t.sink := by
  obtain ⟨u, hu, -, ht⟩ := alone_of_run (run_simulates henv (Nat.le_refl m) p hp pos) hrun
  obtain ⟨t', ht', hsink⟩ := run_of_alone (run_simulates henv hmn p hp pos) hu s
  exact ⟨t', ht', hsink.trans ht.symm⟩

/-- The run of a library-built parser from any state is its run alone, with the sinks merged. -/
theorem Parser.run_map_sink (henv : env.LibraryBuilt) (hp : p.LibraryBuilt) (n pos : Nat)
    (s : State) : (p.run env n pos s).map (fun (r, t) => (r, t.sink)) =
      (p.run env n pos {}).map fun (r, u) => (r, s.sink.merge u.sink) := by
  have hsim := run_simulates henv (Nat.le_refl n) p hp pos
  cases halone : p.run env n pos {} with
  | some ru =>
    obtain ⟨r, u⟩ := ru
    obtain ⟨t, ht, hsink⟩ := run_of_alone hsim halone s
    simp only [ht, Option.map_some, hsink]
  | none =>
    cases hrun : p.run env n pos s with
    | none => rfl
    | some rt =>
      obtain ⟨u, hu, -⟩ := alone_of_run hsim hrun
      rw [halone] at hu
      cases hu

/-- The parser fails when it runs alone, and leaves the sink `u`. -/
def Parser.FailsAlone (env : Env σ τ) (pos : Nat) (p : Parser σ τ α) (u : Sink) : Prop :=
  ∃ n q t, p.run env n pos {} = some (.fail q, t) ∧ t.sink = u

/-- If a parser fails, it also fails alone, with what it has added to the sink. -/
theorem Parser.failsAlone_of_run (henv : env.LibraryBuilt) (hp : p.LibraryBuilt) {n pos q : Nat}
    {s t : State} (hrun : p.run env n pos s = some (.fail q, t)) :
    ∃ u, p.FailsAlone env pos u ∧ t.sink = s.sink.merge u := by
  have hsim := run_simulates henv (Nat.le_refl n) p hp pos
  obtain ⟨u, hu, -, hsink⟩ := alone_of_run hsim hrun
  exact ⟨u.sink, ⟨n, q, u, hu, rfl⟩, hsink⟩

/-- Where no parser of a list succeeds, each has added what it adds alone. -/
theorem Parsers.failsAlone_of_firstOf (henv : env.LibraryBuilt) {n pos e : Nat} :
    ∀ {ps : Parsers σ τ α}, (∀ p ∈ ps.toList, p.LibraryBuilt) → ∀ {s t : State},
      ps.firstOf (fun p q => p.run env n q) pos s = some (.fail e, t) →
      ∃ us, List.Forall₂ (Parser.FailsAlone env pos) ps.toList us ∧
        t.sink = s.sink.merge (.mergeAll us)
  | .nil, _, s, t, hrun => by
    cases hrun
    exact ⟨[], .nil, by simp⟩
  | .cons p ps, hps, s, t, hrun => by
    rw [toList, List.forall_mem_cons] at hps
    rw [firstOf] at hrun
    obtain ⟨r, t₁, hp, hrest⟩ := bind_eq_some.mp hrun
    cases r with
    | ok q a => cases hrest
    | fail q =>
      obtain ⟨u, hu, hsink⟩ := Parser.failsAlone_of_run henv hps.1 hp
      obtain ⟨us, hus, ht⟩ := failsAlone_of_firstOf henv hps.2 hrest
      exact ⟨u :: us, .cons hu hus, by rw [ht, hsink, Sink.mergeAll_cons, Sink.merge_assoc]⟩

theorem Parser.failsAlone_of_either (henv : env.LibraryBuilt) {q : Parser σ τ α}
    (hp : p.LibraryBuilt) (hq : q.LibraryBuilt) {n pos e : Nat} {s t : State}
    (hrun : (either p q).run env n pos s = some (.fail e, t)) :
    ∃ u v, p.FailsAlone env pos u ∧ q.FailsAlone env pos v ∧
      t.sink = s.sink.merge (.mergeAll [u, v]) := by
  cases n with
  | zero => cases hrun
  | succ n =>
    rw [run] at hrun
    obtain ⟨r, t₁, hprun, hrest⟩ := bind_eq_some.mp hrun
    cases r with
    | ok a q => cases hrest
    | fail e' =>
      obtain ⟨r, t₂, hqrun, hrest⟩ := bind_eq_some.mp hrest
      cases r with
      | ok a q => cases hrest
      | fail e'' =>
        cases hrest
        obtain ⟨u, hu, hsink⟩ := failsAlone_of_run henv hp hprun
        obtain ⟨v, hv, hsink'⟩ := failsAlone_of_run henv hq hqrun
        refine ⟨u, v, hu, hv, ?_⟩
        rw [hsink', hsink, Sink.merge_assoc, Sink.mergeAll_cons, Sink.mergeAll_cons,
          Sink.mergeAll_nil, Sink.merge_empty]

/-- A run of a library-built parser depends on the sink in no other way than that it merges what
the parser adds alone. So where all alternatives fail, the sink of the failure joins what the
alternatives add alone. (A choice of nothing has no alternatives, and registers a failure itself.)
-/
theorem Parser.run_isolated (henv : env.LibraryBuilt) :
    (∀ {α : Type} {p : Parser σ τ α}, p.LibraryBuilt → ∀ n pos (s : State),
      (p.run env n pos s).map (fun (r, t) => (r, t.sink)) =
        (p.run env n pos {}).map fun (r, u) => (r, s.sink.merge u.sink)) ∧
    (∀ {α : Type} {p q : Parser σ τ α}, p.LibraryBuilt → q.LibraryBuilt → ∀ {n pos e t},
      (either p q).run env n pos {} = some (.fail e, t) →
      ∃ u v, p.FailsAlone env pos u ∧ q.FailsAlone env pos v ∧ Sink.Joins [u, v] t.sink) ∧
    (∀ {α : Type} {ps : Parsers σ τ α}, ps.toList ≠ [] → (∀ p ∈ ps.toList, p.LibraryBuilt) →
      ∀ {n pos e t}, (choice ps).run env n pos {} = some (.fail e, t) →
      ∃ us, List.Forall₂ (FailsAlone env pos) ps.toList us ∧ Sink.Joins us t.sink) := by
  refine ⟨fun hp => run_map_sink henv hp, fun hp hq n pos e t hrun => ?_,
    fun {_ ps} hne hps n pos e t hrun => ?_⟩
  · obtain ⟨u, v, hu, hv, ht⟩ := failsAlone_of_either henv hp hq hrun
    exact ⟨u, v, hu, hv, ht ▸ Sink.joins_mergeAll [u, v]⟩
  · cases n with
    | zero => cases hrun
    | succ n =>
      cases ps with
      | nil => exact absurd rfl hne
      | cons p ps =>
        rw [run] at hrun
        obtain ⟨us, hus, ht⟩ := Parsers.failsAlone_of_firstOf henv hps hrun
        exact ⟨us, hus, ht ▸ Sink.joins_mergeAll us⟩

end Parsers

/-- Three alternatives on the text "ab", of which the second does not come as far as the others. -/
theorem Parser.run_isolated_three :
    let p : Parser Char (Empty.elim : Empty → Type) Unit := (el 'a').andThen (fail (some "x"))
    let q := fail (some "y")
    let r := any.andThen (label (either (fail (some "u")) (fail none)) "z")
    let env := Env.bare (.ofString "ab")
    let s : State := { sink := .reached 1 [.label 1 2 "w"] }
    (p.LibraryBuilt ∧ q.LibraryBuilt ∧ r.LibraryBuilt) ∧
      ((choiceOf [p, q, r]).run env 5 0 s).map (fun (r, t) => (r, t.sink)) =
        some (.fail 0, .reached 1 [.label 1 2 "w", .expected 1 "x", .expected 1 "u", .unknown 1,
          .label 1 2 "z"]) ∧
      ∃ us, List.Forall₂ (FailsAlone env 0) [p, q, r] us ∧
        Sink.Joins us
          (.reached 1 [.expected 1 "x", .expected 1 "u", .unknown 1, .label 1 2 "z"]) := by
  intro p q r env s
  have hp : p.LibraryBuilt := ⟨trivial, trivial⟩
  have hq : q.LibraryBuilt := trivial
  have hr : r.LibraryBuilt := ⟨trivial, trivial, trivial⟩
  have hchoice : (choiceOf [p, q, r]).LibraryBuilt := ⟨hp, hq, hr, trivial⟩
  have h := run_isolated (Env.bare_builtFrom (fun _ _ => True) (.ofString "ab"))
  refine ⟨⟨hp, hq, hr⟩, (h.1 hchoice 5 0 s).trans rfl, ?_⟩
  have hmem : ∀ p' ∈ (Parsers.ofList [p, q, r]).toList, p'.LibraryBuilt := by
    simp [Parsers.toList, Parsers.ofList, hp, hq, hr]
  have hne : (Parsers.ofList [p, q, r]).toList ≠ [] := List.cons_ne_nil _ _
  have hrun : (choiceOf [p, q, r]).run env 5 0 {} = some (.fail 0, _) := rfl
  exact h.2.2 hne hmem hrun

end Backtrack
