import Backtrack.Proofs.Boundary

/-!
# Soundness of positions

A library-built parser that is started on a boundary of the source stays on boundaries of the
source and never falls behind its start, where it succeeds and wherever it registers a failure. If
its blocks raise only signals that they got from their own parsers, the same holds where it fails,
and it has registered a failure where it says it failed, or beyond. So the index of a failed parse
comes from the sink.

A signal says where the parser ran that failed. A signal of another block could name any position,
and then nothing can be said of a failure (`Parser.run_unsound`).
-/

namespace Backtrack

variable {σ ι : Type} {τ : ι → Type} {α : Type}

/-- The position is a boundary of the source that does not lie before `start`. -/
def Source.Inside (src : Source σ) (start pos : Nat) : Prop :=
  start ≤ pos ∧ pos ≤ src.len ∧ src.IsBoundary pos

theorem Span.of?_new {σ : Type} {src : Source σ} {start stop : Nat} (h : start ≤ stop) :
    (Span.new start stop).of? src = src.slice? start stop := by
  simp only [Span.of?, Span.new, Nat.max_eq_right h]

/-- The parser is library-built, and its blocks raise only signals of their own. -/
def Parser.SelfContained (p : Parser σ τ α) : Prop :=
  p.BuiltFrom fun init body => body.OwnAborts init

/-- The rules are library-built, and their blocks raise only signals of their own. -/
def Env.SelfContained (env : Env σ τ) : Prop := env.BuiltFrom fun init body => body.OwnAborts init

section

variable [BEq σ] [Describe σ] {env : Env σ τ} {p : Parser σ τ α} {n pos : Nat}
  {s t : State} {r : Outcome α}

/-- Where the run of a library-built parser ends, and what it registers, is inside the source, and
so is a failure if blocks raise only signals of their own. -/
theorem Parser.run_inside {law : BlockLaw σ τ} (explained : Prop)
    (hown : explained → ∀ {ν β : Type} (init : ν) (body : Block σ τ ν β), law init body →
      body.OwnAborts init) (henv : env.BuiltFrom law) (hp : p.BuiltFrom law)
    (hpos : env.source.IsBoundary pos) (hrun : p.run env n pos s = some (r, t)) :
    s.Extends (env.source.Inside pos) t ∧ r.Lands (env.source.Inside pos) explained pos t := by
  have hread := env.source.readsWithin_boundary pos
  obtain ⟨hext, hlands⟩ :=
    run_lands explained hread henv hown n p hp ⟨Nat.le_refl pos, hpos⟩ s r t hrun
  have hinside : ∀ i, pos ≤ i ∧ env.source.IsBoundary i → env.source.Inside pos i :=
    fun i hi => ⟨hi.1, hi.2.le_len, hi.2⟩
  refine ⟨hext.mono hinside, ?_⟩
  cases r with
  | ok e a => exact ⟨hlands.1, hinside e hlands.2⟩
  | fail q =>
    intro he
    obtain ⟨hle, hq, hreach⟩ := hlands he
    exact ⟨hle, hinside q hq, hreach⟩

/-- A failure is explained by the sink. -/
theorem Parser.explained_of_fail (henv : env.SelfContained) (hp : p.SelfContained)
    (hpos : env.source.IsBoundary pos) {q : Nat} (hrun : p.run env n pos s = some (.fail q, t)) :
    s.Extends (env.source.Inside pos) t ∧ env.source.Inside pos q ∧ t.sink.Reaches q := by
  obtain ⟨hext, hlands⟩ := run_inside True (fun _ _ _ _ _ h => h) henv hp hpos hrun
  exact ⟨hext, (hlands trivial).2⟩

/-- A failed parse takes its index from the sink, and the index is a position of the source. -/
theorem Parser.farthest_of_failure (henv : env.SelfContained) (hp : p.SelfContained)
    {built built' : List Nat} {i : Nat} {es : List Expectation}
    (h : p.parseFrom? n env built = some (.failure i es, built')) :
    ∃ q t, p.run env n 0 { built := built } = some (.fail q, t) ∧ t.sink.farthest = some i ∧
      env.source.Inside 0 i := by
  obtain ⟨⟨r, t⟩, hrun, hresult⟩ := Option.map_eq_some_iff.mp h
  cases r with
  | ok e a => cases hresult
  | fail q =>
    obtain ⟨⟨es, -, hsink, hes⟩, -, f, hf, -⟩ :=
      explained_of_fail henv hp env.source.isBoundary_zero hrun
    have hi : i = f := by
      cases hresult
      rw [hf]
      rfl
    subst hi
    refine ⟨q, t, hrun, hf, ?_⟩
    rw [hsink, Sink.empty_merge] at hf
    obtain ⟨e, he, rfl⟩ := Sink.exists_mem_of_farthest hf
    exact hes e he

/-- The span that a parser covers is a part of the source. -/
theorem Parser.of?_isSome_of_recognize (henv : env.LibraryBuilt) (hp : p.LibraryBuilt)
    (hpos : env.source.IsBoundary pos) {e : Nat} {span : Span}
    (hrun : (recognize p).run env n pos s = some (.ok e span, t)) :
    (span.of? env.source).isSome := by
  cases n with
  | zero => cases hrun
  | succ n =>
    rw [run] at hrun
    obtain ⟨r, u, hp', hrest⟩ := Act.bind_eq_some.mp hrun
    cases r with
    | fail q => cases hrest
    | ok q a =>
      cases hrest
      obtain ⟨-, hle, -, -, hq⟩ := run_inside False False.elim henv hp hpos hp'
      rw [Span.of?_new hle]
      exact Source.slice?_isSome hpos hq hle

/-- Runs stay inside the source. What a run returns and what it registers lie between its start and
the end of the source, on boundaries, and recognized spans slice the source. If blocks raise only
signals of their own, so does a failure, which is explained by the sink, also for the result of a
parse. -/
theorem Parser.run_sound (henv : env.LibraryBuilt) (hp : p.LibraryBuilt) :
    (∀ {n pos : Nat} {s t : State} {r : Outcome α}, env.source.IsBoundary pos →
      p.run env n pos s = some (r, t) →
      (∀ e a, r = .ok e a → env.source.Inside pos e) ∧
      (∃ new, t.entries = new ++ s.entries ∧ t.sink = s.sink.merge (.ofEntries new) ∧
        ∀ e ∈ new, env.source.Inside pos e.index) ∧
      (env.SelfContained → p.SelfContained → ∀ q, r = .fail q →
        env.source.Inside pos q ∧ ∃ f, t.sink.farthest = some f ∧ q ≤ f)) ∧
    (∀ {n pos e : Nat} {s t : State} {span : Span}, env.source.IsBoundary pos →
      (recognize p).run env n pos s = some (.ok e span, t) → (span.of? env.source).isSome) ∧
    (env.SelfContained → p.SelfContained →
      ∀ {n i : Nat} {built built' : List Nat} {es : List Expectation},
        p.parseFrom? n env built = some (.failure i es, built') →
        ∃ q t, p.run env n 0 { built := built } = some (.fail q, t) ∧ t.sink.farthest = some i ∧
          env.source.Inside 0 i) := by
  refine ⟨fun {n pos s t r} hpos hrun => ?_,
    fun hpos hrun => of?_isSome_of_recognize henv hp hpos hrun,
    fun henv hp => farthest_of_failure henv hp⟩
  obtain ⟨hext, hlands⟩ := run_inside False False.elim henv hp hpos hrun
  refine ⟨?_, hext, ?_⟩
  · rintro e a rfl
    exact hlands.2
  · rintro henv hp q rfl
    exact (explained_of_fail henv hp hpos hrun).2

end

/-- Keeps the signal of a failure, moves on, looks further there, and raises the signal. -/
def Block.raiseKept {ι : Type} {τ : ι → Type} : Block Char τ (Option Abort) Unit :=
  .perform (.fail (some "x") : Parser Char τ Unit) false fun
    | .ok () => .ret ()
    | .error e => .set (some e) <| .perform .any false fun _ =>
        .many (.fail (some "y") : Parser Char τ Unit) fun _ => .get fun
          | some e => .abort e
          | none => .ret ()

theorem Block.raiseKept_builtFrom {ι : Type} {τ : ι → Type} (law : BlockLaw Char τ) :
    (raiseKept : Block Char τ (Option Abort) Unit).BuiltFrom law := by
  rw [raiseKept]
  refine ⟨trivial, fun r => ?_⟩
  cases r with
  | ok _ => trivial
  | error e => exact ⟨trivial, fun _ => ⟨trivial, fun _ v => by cases v <;> trivial⟩⟩

theorem Block.raiseKept_ownAborts {ι : Type} {τ : ι → Type} :
    (raiseKept : Block Char τ (Option Abort) Unit).OwnAborts none := by
  rw [raiseKept]
  refine ⟨fun v => {e | v = some e}, ?_, fun a => Set.Subset.rfl,
    fun pos => ⟨fun e he => ?_, fun a as v => ?_, fun pos' as v => ?_⟩⟩
  · exact Set.eq_empty_of_forall_notMem nofun
  · exact .inr (Option.some.inj he).symm
  · cases v with
    | none => exact Set.empty_subset _
    | some e => exact .inr rfl
  · cases v with
    | none => exact Set.empty_subset _
    | some e => exact .inr rfl

/-- A signal that is raised late, on a text whose first character is two bytes wide. -/
theorem Parser.run_sound_raiseKept :
    let env := Env.bare (.text ['é', 'z'])
    let p := block none Block.raiseKept
    let t : State := {
      sink := .reached 2 [.expected 2 "y"]
      entries := [⟨2, some (.expected 2 "y")⟩, ⟨0, some (.expected 0 "x")⟩] }
    (p.LibraryBuilt ∧ p.SelfContained ∧ env.source.IsBoundary 0 ∧
      p.run env 3 0 {} = some (.fail 0, t) ∧
      p.parseFrom? 3 env [] = some (.failure 2 [.expected 2 "y"], [])) ∧
      env.source.Inside 0 0 ∧ (∃ f, t.sink.farthest = some f ∧ 0 ≤ f) ∧ env.source.Inside 0 2 := by
  intro env p t
  have henv : env.SelfContained := Env.bare_builtFrom _ _
  have hp : p.SelfContained := ⟨Block.raiseKept_builtFrom _, Block.raiseKept_ownAborts⟩
  have hzero := env.source.isBoundary_zero
  have hrun : p.run env 3 0 {} = some (.fail 0, t) := by decide +kernel
  have hparse : p.parseFrom? 3 env [] = some (.failure 2 [.expected 2 "y"], []) := by
    decide +kernel
  have hbuilt : p.LibraryBuilt := ⟨Block.raiseKept_builtFrom _, trivial⟩
  obtain ⟨hruns, -, hparses⟩ := run_sound (Env.bare_builtFrom _ _) hbuilt
  obtain ⟨-, -, hfail⟩ := hruns hzero hrun
  obtain ⟨hinside, hfarthest⟩ := hfail henv hp 0 rfl
  obtain ⟨-, -, -, -, hindex⟩ := hparses henv hp hparse
  exact ⟨⟨hbuilt, hp, hzero, hrun, hparse⟩, hinside, hfarthest, hindex⟩

/-- A block that raises a signal of another block fails before its start, and nothing has been
registered; a parse then has no index but that of the failure. The signal is one that a block gave
away on the same text. -/
theorem Parser.run_unsound :
    let env := Env.bare (.text ['a'])
    let given : Abort := ⟨0, false⟩
    let giver : Parser Char (Empty.elim : Empty → Type) (Except Abort Char) := signalOf (.el 'x')
    let p : Parser Char (Empty.elim : Empty → Type) Unit := raising given
    (giver.LibraryBuilt ∧ ∃ t, giver.run env 2 0 {} = some (.ok 0 (.error given), t)) ∧
      (p.LibraryBuilt ∧ env.source.IsBoundary 1 ∧ p.run env 1 1 {} = some (.fail 0, {}) ∧
        ¬ env.source.Inside 1 0 ∧ ({} : State).sink.farthest = none) ∧
      p.run env 1 0 {} = some (.fail 0, {}) ∧
        p.parseFrom? 1 env [] = some (.failure 0 [], []) := by
  intro env given giver p
  have hmissing : (Parser.el 'x' : Parser Char (Empty.elim : Empty → Type) Char).LibraryBuilt :=
    trivial
  have hend : env.source.IsBoundary 1 := Source.isBoundary_iff_rest?.mpr rfl
  have hbefore : ¬ env.source.Inside 1 0 := fun h => Nat.not_succ_le_zero 0 h.1
  exact ⟨⟨signalOf_libraryBuilt hmissing, _, run_signalOf_fail rfl⟩,
    ⟨raising_libraryBuilt given, hend, run_raising given, hbefore, rfl⟩, run_raising given, rfl⟩

end Backtrack
