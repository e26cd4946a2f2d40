import Backtrack.Proofs.Landing
import Backtrack.Proofs.Monotone

/-!
# Labels are pure diagnostics

`Parser.unlabelled` takes all labels out of a parser, wherever they stand. What is left runs as the
parser did: it returns the same or fails at the same position and, if its blocks raise only signals
of their own, it comes equally far, and reports the same but for the labels
(`Parser.run_unlabelled`).

A label writes into the sink at the position where the labelled parser started, and a write beyond
the farthest position would drop what was collected before. But the labelled parser has failed by
then, and has registered a failure where it started or beyond (`Parser.Oblivious.reaches_of_fail`).
So a label adds a record or nothing, and never moves the farthest position. A block that raises the
signal of another block may fail with nothing registered, and around it a label does move the
farthest position (`Parser.run_unlabelled_raising`).
-/

namespace Backtrack

variable {σ ι : Type} {τ : ι → Type} {α β ν : Type}

open Act

/-! ## Taking out labels -/

mutual

/-- The parser without labels. -/
def Parser.unlabelled : {α : Type} → Parser σ τ α → Parser σ τ α
  | _, .pure a => .pure a
  | _, .fail what => .fail what
  | _, .any => .any
  | _, .eoi => .eoi
  | _, .el x => .el x
  | _, .oneOf set => .oneOf set
  | _, .noneOf set => .noneOf set
  | _, .satisfy pred => .satisfy pred
  | _, .literal pattern => .literal pattern
  | _, .charWith pred => .charWith pred
  | _, .regexGroup re i => .regexGroup re i
  | _, .regexGroups re => .regexGroups re
  | _, .covered p => .covered p.unlabelled
  | _, .map p f => .map p.unlabelled f
  | _, .flatMap p next => .flatMap p.unlabelled fun a => (next a).unlabelled
  | _, .andMap p q f => .andMap p.unlabelled q.unlabelled f
  | _, .between p pre post => .between p.unlabelled pre.unlabelled post.unlabelled
  | _, .either p q => .either p.unlabelled q.unlabelled
  | _, .choice ps => .choice ps.unlabelled
  | _, .option p default => .option p.unlabelled default
  | _, .opt p => .opt p.unlabelled
  | _, .seq ps allowPartial => .seq ps.unlabelled allowPartial
  | _, .many p bounds => .many p.unlabelled bounds
  | _, .manyAccum p init f bounds => .manyAccum p.unlabelled init f bounds
  | _, .sepBy p sep bounds => .sepBy p.unlabelled sep.unlabelled bounds
  | _, .lookAhead p => .lookAhead p.unlabelled
  | _, .notFollowedBy p => .notFollowedBy p.unlabelled
  | _, .label p _ => p.unlabelled
  | _, .recognize p => .recognize p.unlabelled
  | _, .lazy id p => .lazy id p.unlabelled
  | _, .rule i => .rule i
  | _, .block init body => .block init body.unlabelled
  | _, .function body => .function fun pos => (body pos).unlabelled

/-- The parsers without labels. -/
def Parsers.unlabelled : {α : Type} → Parsers σ τ α → Parsers σ τ α
  | _, .nil => .nil
  | _, .cons p ps => .cons p.unlabelled ps.unlabelled

/-- The block, with labels taken out of the parsers that it runs. -/
def Block.unlabelled : {ν α : Type} → Block σ τ ν α → Block σ τ ν α
  | _, _, .ret a => .ret a
  | _, _, .abort e => .abort e
  | _, _, .perform p allowPartial next =>
    .perform p.unlabelled allowPartial fun r => (next r).unlabelled
  | _, _, .many p next => .many p.unlabelled fun as => (next as).unlabelled
  | _, _, .attempt body next => .attempt body.unlabelled fun r => (next r).unlabelled
  | _, _, .loop body next => .loop body.unlabelled next.unlabelled
  | _, _, .position next => .position fun pos => (next pos).unlabelled
  | _, _, .ask next => .ask fun src cfg => (next src cfg).unlabelled
  | _, _, .inspect next => .inspect fun s => (next s).unlabelled
  | _, _, .register index record inPlace next => .register index record inPlace next.unlabelled
  | _, _, .get next => .get fun v => (next v).unlabelled
  | _, _, .set v next => .set v next.unlabelled

/-- The function, with labels taken out of the parsers that it runs. -/
def Routine.unlabelled : {α : Type} → Routine σ τ α → Routine σ τ α
  | _, .ret a => .ret a
  | _, .ask next => .ask fun src cfg => (next src cfg).unlabelled
  | _, .inspect next => .inspect fun s => (next s).unlabelled
  | _, .register index record inPlace next => .register index record inPlace next.unlabelled
  | _, .call p pos next => .call p.unlabelled pos fun r => (next r).unlabelled

end

/-- The grammar with labels taken out of its rules. -/
def Env.unlabelled (env : Env σ τ) : Env σ τ :=
  { env with rules := fun i => (env.rules i).map Parser.unlabelled }

@[simp] theorem Env.source_unlabelled (env : Env σ τ) : env.unlabelled.source = env.source := rfl

/-- The sink without its labels. -/
def Sink.unlabelled : Sink → Sink
  | empty => empty
  | reached f rs => reached f (rs.filter fun r => !r.isLabel)

/-! ## Labels in the sink -/

namespace Sink

variable {s : Sink} {i : Nat} {r : Option Expectation}

@[simp] theorem farthest_unlabelled (s : Sink) : s.unlabelled.farthest = s.farthest := by
  cases s <;> rfl

@[simp] theorem records_unlabelled (s : Sink) :
    s.unlabelled.records = s.records.filter fun r => !r.isLabel := by
  cases s <;> rfl

theorem unlabelled_merge (s t : Sink) :
    (s.merge t).unlabelled = s.unlabelled.merge t.unlabelled := by
  cases s with
  | empty => rfl
  | reached f rs =>
    cases t with
    | empty => rfl
    | reached g ts =>
      rcases Nat.lt_trichotomy f g with h | rfl | h
      · simp [merge, unlabelled, h]
      · simp [merge, unlabelled]
      · simp [merge, unlabelled, h, Nat.lt_asymm h]

/-- An entry that is no label is registered in the same way. -/
theorem unlabelled_add (hr : ∀ e, r = some e → e.isLabel = false) :
    (s.add i r).unlabelled = s.unlabelled.add i r := by
  have hrecord : (reached i r.toList).unlabelled = reached i r.toList := by
    cases r with
    | none => rfl
    | some e => simp [unlabelled, hr e rfl]
  rw [add_eq_merge, add_eq_merge, unlabelled_merge, hrecord]

/-- Of a label that does not lie beyond the farthest position nothing is left. -/
theorem unlabelled_add_label {e : Expectation} (hs : s.Reaches i) (he : e.isLabel = true) :
    (s.add i (some e)).unlabelled = s.unlabelled := by
  have hlabel : (reached i (some e).toList).unlabelled = reached i [] := by simp [unlabelled, he]
  have hs' : s.unlabelled.Reaches i := by rwa [Reaches, farthest_unlabelled]
  rw [add_eq_merge, unlabelled_merge, hlabel, merge_reached_nil hs']

end Sink

/-! ## Two runs -/

/-- If failures are explained by the sink, the second state is the first without its labels. -/
def Unlabels (explained : Prop) (s t : State) : Prop := explained → t.sink = s.sink.unlabelled

namespace Act.Simulates

variable {explained : Prop}

theorem plainly_unlabels : Plainly (Unlabels explained) := by
  intro i r _ hr s t hst _ s' hrun
  cases hrun
  refine ⟨_, rfl, fun he => ?_⟩
  rw [Sink.unlabelled_add hr, ← hst he]

theorem build_unlabels (id : Nat) :
    Simulates (Unlabels explained) (Act.build id) (Act.build id) := by
  intro s t hst _ s' hrun
  cases hrun
  exact ⟨_, rfl, hst⟩

theorem isolated_unlabels {a b : Act α} (h : Simulates (Unlabels explained) a b) :
    Simulates (Unlabels explained) (Act.isolated a) (Act.isolated b) := by
  intro s t hst x s' hrun
  obtain ⟨u, ha, rfl⟩ := isolated_eq_some.mp hrun
  have hempty : Unlabels explained { s with sink := .empty, entries := [] }
      { t with sink := .empty, entries := [] } := fun _ => rfl
  obtain ⟨u', hb, -⟩ := h _ _ hempty x u ha
  exact ⟨_, isolated_eq_some.mpr ⟨u', hb, rfl⟩, hst⟩

end Act.Simulates

section Bodies

variable {explained : Prop} {law : BlockLaw σ τ} {reports : Nat → Option Expectation → Prop}
  {call call' : Call σ τ} {m n : Nat}

theorem Block.exec_unlabelled (src : Source σ) (cfg : Config) (hmn : m ≤ n)
    (hreports : ∀ i r, reports i r → ∀ e, r = some e → e.isLabel = false)
    (hcall : ∀ {β : Type} (p : Parser σ τ β), p.Oblivious law reports → ∀ q,
      Simulates (Unlabels explained) (call p q) (call' p.unlabelled q)) :
    ∀ {ν α : Type} (body : Block σ τ ν α), body.Oblivious law reports → ∀ (pos : Nat) (v : ν),
      Simulates (Unlabels explained) (body.exec call src cfg m pos v)
        (body.unlabelled.exec call' src cfg n pos v)
  | _, _, .ret a, _, pos, v => by
    rw [unlabelled, exec, exec]
    exact .pure _
  | _, _, .abort e, _, pos, v => by
    rw [unlabelled, exec, exec]
    exact .pure _
  | _, _, .perform p allowPartial next, hb, pos, v => by
    rw [unlabelled, exec, exec]
    refine (hcall p hb.1 pos).bind fun r => ?_
    cases r with
    | ok q a => exact exec_unlabelled src cfg hmn hreports hcall (next (.ok a)) (hb.2 _) q v
    | fail q => exact exec_unlabelled src cfg hmn hreports hcall (next (.error _)) (hb.2 _) pos v
  | _, _, .many p next, hb, pos, v => by
    rw [unlabelled, exec, exec]
    refine (Simulates.manyLoop (hcall p hb.1) hmn none pos).bind fun r => ?_
    exact exec_unlabelled src cfg hmn hreports hcall (next r.1) (hb.2 _) r.2 v
  | _, _, .attempt body next, hb, pos, v => by
    rw [unlabelled, exec, exec]
    refine (exec_unlabelled src cfg hmn hreports hcall body hb.1 pos v).bind fun r => ?_
    obtain ⟨r, q, w⟩ := r
    cases r with
    | ok a => exact exec_unlabelled src cfg hmn hreports hcall (next (some a)) (hb.2 _) q w
    | error e => exact exec_unlabelled src cfg hmn hreports hcall (next none) (hb.2 _) _ w
  | _, _, .loop body next, hb, pos, v => by
    rw [unlabelled, exec, exec]
    have hpass := fun q w => exec_unlabelled src cfg hmn hreports hcall body hb.1 q w
    refine (Simulates.passLoop hpass hmn pos v).bind fun r => ?_
    exact exec_unlabelled src cfg hmn hreports hcall next hb.2 r.1 r.2
  | _, _, .position next, hb, pos, v => by
    rw [unlabelled, exec, exec]
    exact exec_unlabelled src cfg hmn hreports hcall (next pos) (hb _) pos v
  | _, _, .ask next, hb, pos, v => by
    rw [unlabelled, exec, exec]
    exact exec_unlabelled src cfg hmn hreports hcall (next src cfg) (hb _ _) pos v
  | _, _, .register index record inPlace next, hb, pos, v => by
    rw [unlabelled, exec, exec]
    have hplain : Simulates (Unlabels explained) (Act.register index record)
        (Act.register index record) := .plainly_unlabels _ _ inPlace (hreports _ _ hb.1)
    refine hplain.bind fun _ => ?_
    exact exec_unlabelled src cfg hmn hreports hcall next hb.2 pos v
  | _, _, .get next, hb, pos, v => by
    rw [unlabelled, exec, exec]
    exact exec_unlabelled src cfg hmn hreports hcall (next v) (hb _) pos v
  | _, _, .set w next, hb, pos, v => by
    rw [unlabelled, exec, exec]
    exact exec_unlabelled src cfg hmn hreports hcall next hb pos w
  | _, _, .inspect _, hb, _, _ => hb.elim

theorem Parsers.firstOf_unlabelled : ∀ (ps : Parsers σ τ α),
    (∀ p ∈ ps.toList, ∀ q, Simulates (Unlabels explained) (call p q) (call' p.unlabelled q)) →
    ∀ pos, Simulates (Unlabels explained) (ps.firstOf call pos) (ps.unlabelled.firstOf call' pos)
  | .nil, _, pos => .pure _
  | .cons p ps, hps, pos => by
    rw [toList, List.forall_mem_cons] at hps
    rw [unlabelled, firstOf, firstOf]
    refine (hps.1 pos).bind fun r => ?_
    cases r with
    | ok q a => exact .pure _
    | fail q => exact firstOf_unlabelled ps hps.2 pos

theorem Parsers.inOrder_unlabelled (allowPartial : Bool) : ∀ (ps : Parsers σ τ α),
    (∀ p ∈ ps.toList, ∀ q, Simulates (Unlabels explained) (call p q) (call' p.unlabelled q)) →
    ∀ pos, Simulates (Unlabels explained) (ps.inOrder call allowPartial pos)
      (ps.unlabelled.inOrder call' allowPartial pos)
  | .nil, _, pos => .pure _
  | .cons p ps, hps, pos => by
    rw [toList, List.forall_mem_cons] at hps
    rw [unlabelled, inOrder, inOrder]
    refine (hps.1 pos).bind fun r => ?_
    cases r with
    | fail q => exact .pure _
    | ok q a =>
      refine (inOrder_unlabelled allowPartial ps hps.2 q).bind fun r => ?_
      cases r with
      | ok e as => exact .pure _
      | fail e => exact .pure _

end Bodies

/-! ## Every parser -/

/-- What a block registers by hand is no label. -/
def NoLabel (_ : Nat) (r : Option Expectation) : Prop := ∀ e, r = some e → e.isLabel = false

/-- The parser does not read the sink, and what its blocks register by hand is no label. -/
def Parser.ReadsNoSink (p : Parser σ τ α) : Prop := p.Oblivious (fun _ _ => True) NoLabel

/-- No rule reads the sink. -/
def Env.ReadsNoSink (env : Env σ τ) : Prop := env.Oblivious (fun _ _ => True) NoLabel

/-- The parser does not read the sink, and its blocks raise only signals of their own. -/
def Parser.Secluded (p : Parser σ τ α) : Prop :=
  p.Oblivious (fun init body => body.OwnAborts init) NoLabel

/-- No rule reads the sink or raises signals that are not its own. -/
def Env.Secluded (env : Env σ τ) : Prop :=
  env.Oblivious (fun init body => body.OwnAborts init) NoLabel

section Parsers

variable [BEq σ] [Describe σ] {env : Env σ τ} {explained : Prop}

/-- The run of a label, against the run of what is labelled. -/
theorem Parser.label_unlabelled {m pos : Nat} {p : Parser σ τ α} {b : Act (Outcome α)}
    (hreach : explained → ∀ {q s t}, p.run env m pos s = some (.fail q, t) → t.sink.Reaches pos)
    (hp : Simulates (Unlabels explained) (p.run env m pos) b) (name : String) :
    Simulates (Unlabels explained) ((label p name).run env (m + 1) pos) b := by
  intro s t hst r s' hrun
  rw [run] at hrun
  obtain ⟨_, _, hcurrent, hrun⟩ := bind_eq_some.mp hrun
  cases hcurrent
  obtain ⟨r', u, hprun, hrest⟩ := bind_eq_some.mp hrun
  obtain ⟨t', ht', hut⟩ := hp s t hst r' u hprun
  cases r' with
  | ok q a =>
    cases hrest
    exact ⟨t', ht', hut⟩
  | fail q =>
    cases hrest
    refine ⟨t', ht', fun he => ?_⟩
    rw [hut he]
    exact (Sink.unlabelled_add_label (hreach he hprun) rfl).symm

/-- One case for each kind of parser, by induction on the bound. -/
theorem Parser.run_simulates_unlabelled (explained : Prop) {law : BlockLaw σ τ}
    (henv : env.Oblivious law NoLabel)
    (hown : explained → ∀ {ν β : Type} (init : ν) (body : Block σ τ ν β), law init body →
      body.OwnAborts init) {m n : Nat} (hmn : m ≤ n) (p : Parser σ τ α)
    (hp : p.Oblivious law NoLabel) (pos : Nat) :
    Simulates (Unlabels explained) (p.run env m pos) (p.unlabelled.run env.unlabelled n pos) := by
  induction m generalizing α n p pos with
  | zero => exact .exceeded
  | succ m ih =>
    obtain ⟨n, rfl⟩ := Nat.exists_eq_add_of_le' (Nat.lt_of_lt_of_le m.succ_pos hmn)
    have hlabel : m ≤ n + 1 := Nat.le_of_succ_le hmn
    have hmn : m ≤ n := Nat.le_of_succ_le_succ hmn
    cases p with
    | pure a => exact .pure _
    | fail what =>
      cases what with
      | none => exact .mismatch .plainly_unlabels pos
      | some what => exact .failWith .plainly_unlabels rfl pos
    | any => exact .symbolWhere (.mismatch .plainly_unlabels pos) pos
    | eoi =>
      rw [unlabelled, run, run, Env.source_unlabelled]
      split
      · exact .pure _
      · exact .failWith .plainly_unlabels rfl pos
    | el x => exact .symbolWhere (.failWith .plainly_unlabels rfl pos) pos
    | oneOf set => exact .symbolWhere (.expectEach .plainly_unlabels _ pos) pos
    | noneOf set => exact .symbolWhere (.mismatch .plainly_unlabels pos) pos
    | satisfy pred => exact .symbolWhere (.mismatch .plainly_unlabels pos) pos
    | literal pattern =>
      rw [unlabelled, run, run, Env.source_unlabelled]
      split
      · exact .pure _
      · exact .failWith .plainly_unlabels rfl pos
    | charWith pred => exact .charWhere .plainly_unlabels _ pos pred
    | regexGroup re i => exact .regexWhere .plainly_unlabels _ re pos _
    | regexGroups re => exact .regexWhere .plainly_unlabels _ re pos _
    | covered p =>
      rw [unlabelled, run, run]
      refine (Simulates.isolated_unlabels (ih hmn p hp pos)).bind fun r => ?_
      cases r with
      | fail q => exact .mismatch .plainly_unlabels pos
      | ok q a =>
        dsimp only
        rw [Env.source_unlabelled]
        split
        · exact .pure _
        · exact .mismatch .plainly_unlabels pos
    | map p f =>
      rw [unlabelled, run, run]
      exact (ih hmn p hp pos).bind fun r => .pure _
    | flatMap p next =>
      rw [unlabelled, run, run]
      refine (ih hmn p hp.1 pos).bind fun r => ?_
      cases r with
      | fail q => exact .pure _
      | ok q a => exact ih hmn (next a) (hp.2 a) q
    | andMap p q f =>
      rw [unlabelled, run, run]
      refine (ih hmn p hp.1 pos).bind fun r => ?_
      cases r with
      | fail q => exact .pure _
      | ok e a => exact (ih hmn q hp.2 e).bind fun r => .pure _
    | between p pre post =>
      rw [unlabelled, run, run]
      refine (ih hmn pre hp.2.1 pos).bind fun r => ?_
      cases r with
      | fail q => exact .pure _
      | ok e _ =>
        refine (ih hmn p hp.1 e).bind fun r => ?_
        cases r with
        | fail q => exact .pure _
        | ok e a => exact (ih hmn post hp.2.2 e).bind fun r => .pure _
    | either p q =>
      rw [unlabelled, run, run]
      refine (ih hmn p hp.1 pos).bind fun r => ?_
      cases r with
      | ok e a => exact .pure _
      | fail _ =>
        refine (ih hmn q hp.2 pos).bind fun r => ?_
        cases r with
        | ok e a => exact .pure _
        | fail e => exact .pure _
    | choice ps =>
      cases ps with
      | nil =>
        rw [unlabelled, Parsers.unlabelled, run, run]
        exact (Simulates.registerNone .plainly_unlabels pos).bind fun _ => .pure _
      | cons p ps =>
        rw [unlabelled, Parsers.unlabelled, run, run]
        exact Parsers.firstOf_unlabelled (.cons p ps)
          (fun p' hp' q => ih hmn p' (Parsers.Oblivious.of_mem hp p' hp') q) pos
    | option p default =>
      rw [unlabelled, run, run]
      refine (ih hmn p hp pos).bind fun r => ?_
      cases r with
      | ok e a => exact .pure _
      | fail _ => exact .pure _
    | opt p =>
      rw [unlabelled, run, run]
      refine (ih hmn p hp pos).bind fun r => ?_
      cases r with
      | ok e a => exact .pure _
      | fail _ => exact .pure _
    | seq ps allowPartial =>
      rw [unlabelled, run, run]
      exact Parsers.inOrder_unlabelled allowPartial ps
        (fun p' hp' q => ih hmn p' (Parsers.Oblivious.of_mem hp p' hp') q) pos
    | many p bounds =>
      rw [unlabelled, run, run]
      have hloop := Simulates.manyLoop (ih hmn p hp) hmn bounds.max pos
      exact hloop.bind fun r => .atLeast .plainly_unlabels _ _ _ _
    | manyAccum p init f bounds =>
      rw [unlabelled, run, run]
      have hloop := Simulates.foldLoop (ih hmn p hp) f hmn bounds.max init 0 pos
      exact hloop.bind fun r => .atLeast .plainly_unlabels _ _ _ _
    | sepBy p sep bounds =>
      rw [unlabelled, run, run]
      split
      · exact .atLeast .plainly_unlabels _ _ _ _
      · refine (ih hmn p hp.1 pos).bind fun r => ?_
        cases r with
        | fail _ => exact .atLeast .plainly_unlabels _ _ _ _
        | ok q a =>
          have hloop := Simulates.sepLoop (ih hmn p hp.1) (ih hmn sep hp.2) hmn
            (bounds.max.map (· - 1)) q
          exact hloop.bind fun r => .atLeast .plainly_unlabels _ _ _ _
    | lookAhead p =>
      rw [unlabelled, run, run]
      refine (ih hmn p hp pos).bind fun r => ?_
      cases r with
      | ok e a => exact .pure _
      | fail q => exact .pure _
    | notFollowedBy p =>
      rw [unlabelled, run, run]
      refine (ih hmn p hp pos).bind fun r => ?_
      cases r with
      | ok e a => exact .mismatch .plainly_unlabels pos
      | fail q => exact .pure _
    | label p name =>
      rw [unlabelled]
      have hreach (he : explained) {q : Nat} {s t : State}
          (hrun : p.run env m pos s = some (.fail q, t)) : t.sink.Reaches pos :=
        Oblivious.reaches_of_fail (p := p) (hown he) henv hp hrun
      exact label_unlabelled hreach (ih hlabel p hp pos) name
    | recognize p =>
      rw [unlabelled, run, run]
      refine (ih hmn p hp pos).bind fun r => ?_
      cases r with
      | ok e a => exact .pure _
      | fail q => exact .pure _
    | lazy id p =>
      rw [unlabelled, run, run]
      exact (Simulates.build_unlabels id).bind fun _ => ih hmn p hp pos
    | rule i =>
      rw [unlabelled, run, run]
      cases hrule : env.rules i with
      | none =>
        simp only [Env.unlabelled, hrule, Option.map_none]
        exact .mismatch .plainly_unlabels pos
      | some p =>
        simp only [Env.unlabelled, hrule, Option.map_some]
        exact ih hmn p (henv i p hrule) pos
    | block init body =>
      rw [unlabelled, run, run]
      have hbody := Block.exec_unlabelled env.source env.config hmn (fun _ _ h => h)
        (fun p hp q => ih hmn p hp q) body hp.1 pos init
      refine hbody.bind fun r => ?_
      obtain ⟨r, q, w⟩ := r
      cases r with
      | ok a => exact .pure _
      | error e => exact .pure _
    | function body => exact hp.elim

end Parsers

end Backtrack
