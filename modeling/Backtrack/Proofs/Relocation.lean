import Backtrack.Proofs.LibraryBuilt
import Backtrack.Proofs.Sink.Move

/-!
# Parsers that do not know where they are

Let one source be embedded in another: a strictly increasing map `φ` takes its positions to
positions of the other, and at `φ i` the other source reads as it does at `i` (`Source.Embeds`).
Then a parser that does not look at positions runs on both in lockstep. It comes to the same value
and to the mapped positions, wherever a position is kept: in its outcome and in every record of the
sink (`Parser.run_move`).

A parser looks at positions if it gives out spans, or if a block in it does. A block gets to see
positions when it asks for its own or for the source, and also in the signals of failures, which it
may keep and raise but not read. What a block does with a signal that it cannot read is the same
for every position in it: `Block.Moves φ` relates two blocks that differ in their signals by `φ`,
and a block is `PositionFree` if it is related to itself for every `φ`.
-/

namespace Backtrack

variable {σ ι : Type} {τ : ι → Type} {α β ν : Type}

open Act

/-! ## Blocks that do not read positions -/

/-- The signal for another position. -/
def Abort.move (φ : Nat → Nat) (e : Abort) : Abort := { e with position := φ e.position }

/-- The second block does what the first does, where the signals that it has got are moved.
Variables of the two are related by `held`, and their values by `kept`. -/
inductive Block.Moves (φ : Nat → Nat) : {ν α : Type} → (ν → ν → Prop) → (α → α → Prop) →
    Block σ τ ν α → Block σ τ ν α → Prop where
  | ret {ν α : Type} {held : ν → ν → Prop} {kept : α → α → Prop} {a a' : α} (h : kept a a') :
    Moves φ held kept (.ret a) (.ret a')
  | abort {ν α : Type} {held : ν → ν → Prop} {kept : α → α → Prop} (e : Abort) :
    Moves φ held kept (.abort e) (.abort (e.move φ))
  | perform {ν α β : Type} {held : ν → ν → Prop} {kept : α → α → Prop} {p : Parser σ τ β}
    {allowPartial : Bool} {next next' : Except Abort β → Block σ τ ν α}
    (hok : ∀ b, Moves φ held kept (next (.ok b)) (next' (.ok b)))
    (herror : ∀ i, Moves φ held kept (next (.error ⟨i, allowPartial⟩))
      (next' (.error ⟨φ i, allowPartial⟩))) :
    Moves φ held kept (.perform p allowPartial next) (.perform p allowPartial next')
  | many {ν α β : Type} {held : ν → ν → Prop} {kept : α → α → Prop} {p : Parser σ τ β}
    {next next' : List β → Block σ τ ν α} (h : ∀ bs, Moves φ held kept (next bs) (next' bs)) :
    Moves φ held kept (.many p next) (.many p next')
  | attempt {ν α β : Type} {held : ν → ν → Prop} {kept : α → α → Prop} {kept' : β → β → Prop}
    {body body' : Block σ τ ν β} {next next' : Option β → Block σ τ ν α}
    (hbody : Moves φ held kept' body body')
    (hsome : ∀ b b', kept' b b' → Moves φ held kept (next (some b)) (next' (some b')))
    (hnone : Moves φ held kept (next none) (next' none)) :
    Moves φ held kept (.attempt body next) (.attempt body' next')
  | loop {ν α : Type} {held : ν → ν → Prop} {kept : α → α → Prop} {body body' : Block σ τ ν Unit}
    {next next' : Block σ τ ν α} (hbody : Moves φ held Eq body body')
    (hnext : Moves φ held kept next next') :
    Moves φ held kept (.loop body next) (.loop body' next')
  | ask {ν α : Type} {held : ν → ν → Prop} {kept : α → α → Prop}
    {next next' : Source σ → Config → Block σ τ ν α}
    (h : ∀ src src' cfg, Moves φ held kept (next src cfg) (next' src' cfg)) :
    Moves φ held kept (.ask next) (.ask next')
  | get {ν α : Type} {held : ν → ν → Prop} {kept : α → α → Prop} {next next' : ν → Block σ τ ν α}
    (h : ∀ v v', held v v' → Moves φ held kept (next v) (next' v')) :
    Moves φ held kept (.get next) (.get next')
  | set {ν α : Type} {held : ν → ν → Prop} {kept : α → α → Prop} {v v' : ν}
    {next next' : Block σ τ ν α} (hv : held v v') (h : Moves φ held kept next next') :
    Moves φ held kept (.set v next) (.set v' next')

/-- The block reads no position and nothing of the source, and none is left in its value. -/
def Block.PositionFree (init : ν) (body : Block σ τ ν α) : Prop :=
  ∀ φ, ∃ held : ν → ν → Prop, held init init ∧ body.Moves φ held Eq body

mutual

/-- The parser is made of the library, and does not look at positions. It reads characters of a text
by what is peculiar to texts only if `adapters` allows it. -/
def Parser.Movable (adapters : Prop) : {α : Type} → Parser σ τ α → Prop
  | _, .pure _ | _, .fail _ | _, .any | _, .eoi | _, .el _ | _, .oneOf _ | _, .noneOf _
  | _, .satisfy _ | _, .literal _ | _, .rule _ => True
  | _, .charWith _ | _, .regexGroup .. => adapters
  | _, .covered p => adapters ∧ p.Movable adapters
  | _, .map p _ | _, .option p _ | _, .opt p | _, .many p _ | _, .manyAccum p ..
  | _, .lookAhead p | _, .notFollowedBy p | _, .label p _ | _, .lazy _ p => p.Movable adapters
  | _, .flatMap p next => p.Movable adapters ∧ ∀ a, (next a).Movable adapters
  | _, .andMap p q _ => p.Movable adapters ∧ q.Movable adapters
  | _, .sepBy p sep _ => p.Movable adapters ∧ sep.Movable adapters
  | _, .either p q => p.Movable adapters ∧ q.Movable adapters
  | _, .between p pre post => p.Movable adapters ∧ pre.Movable adapters ∧ post.Movable adapters
  | _, .choice ps | _, .seq ps _ => ps.Movable adapters
  | _, .block init body => body.Movable adapters ∧ body.PositionFree init
  | _, .regexGroups _ | _, .recognize _ | _, .function _ => False

/-- No parser of the list looks at positions. -/
def Parsers.Movable (adapters : Prop) : {α : Type} → Parsers σ τ α → Prop
  | _, .nil => True
  | _, .cons p ps => p.Movable adapters ∧ ps.Movable adapters

/-- No parser that the block runs looks at positions. -/
def Block.Movable (adapters : Prop) : {ν α : Type} → Block σ τ ν α → Prop
  | _, _, .ret _ | _, _, .abort _ => True
  | _, _, .perform p _ next => p.Movable adapters ∧ ∀ r, (next r).Movable adapters
  | _, _, .many p next => p.Movable adapters ∧ ∀ as, (next as).Movable adapters
  | _, _, .attempt body next => body.Movable adapters ∧ ∀ r, (next r).Movable adapters
  | _, _, .loop body next => body.Movable adapters ∧ next.Movable adapters
  | _, _, .ask next => ∀ src cfg, (next src cfg).Movable adapters
  | _, _, .get next => ∀ v, (next v).Movable adapters
  | _, _, .set _ next => next.Movable adapters
  | _, _, .position _ | _, _, .inspect _ | _, _, .register .. => False

end

/-- No rule of the grammar looks at positions. -/
def Env.Movable (adapters : Prop) (env : Env σ τ) : Prop :=
  ∀ i p, env.rules i = some p → p.Movable adapters

theorem Parsers.Movable.of_mem {adapters : Prop} : ∀ {ps : Parsers σ τ α},
    ps.Movable adapters → ∀ p ∈ ps.toList, p.Movable adapters
  | .nil, _, p, hp => by simp [Parsers.toList] at hp
  | .cons q qs, h, p, hp => by
    rw [Parsers.Movable] at h
    rw [Parsers.toList, List.mem_cons] at hp
    rcases hp with rfl | hp
    · exact h.1
    · exact h.2.of_mem p hp

/-- How two blocks end that differ in their signals. -/
def Block.EndsMoved (φ : Nat → Nat) (held : ν → ν → Prop) (kept : α → α → Prop) :
    Except Abort α × Nat × ν → Except Abort α × Nat × ν → Prop
  | (.ok a, q, v), (.ok a', q', v') => kept a a' ∧ q' = φ q ∧ held v v'
  | (.error e, q, v), (.error e', q', v') => e' = e.move φ ∧ q' = φ q ∧ held v v'
  | _, _ => False

section Bodies

variable {φ : Nat → Nat} {adapters : Prop} {call call' : Call σ τ}

/-- Passes of two blocks that differ in their signals. -/
theorem Act.Lockstep.passLoop (hφ : StrictMono φ) {held : ν → ν → Prop}
    {pass pass' : Nat → ν → Act (Except Abort Unit × Nat × ν)}
    (hpass : ∀ q v v', held v v' →
      Lockstep (Moved φ) (Block.EndsMoved φ held Eq) (pass q v) (pass' (φ q) v'))
    (n pos : Nat) {v v' : ν} (hv : held v v') :
    Lockstep (Moved φ) (fun x y => y.1 = φ x.1 ∧ held x.2 y.2)
      (Backtrack.passLoop pass n pos v) (Backtrack.passLoop pass' n (φ pos) v') := by
  induction n generalizing pos v v' with
  | zero => exact .exceeded
  | succ n ih =>
    rw [Backtrack.passLoop, Backtrack.passLoop]
    refine (hpass pos v v' hv).bind fun x y hxy => ?_
    obtain ⟨r, q, w⟩ := x
    obtain ⟨r', q', w'⟩ := y
    cases r with
    | ok a =>
      cases r' with
      | error e' => exact hxy.elim
      | ok a' =>
        obtain ⟨-, rfl, hw⟩ := hxy
        simp only [hφ.lt_iff_lt]
        split
        · exact ih q hw
        · exact .pure ⟨rfl, hw⟩
    | error e =>
      cases r' with
      | ok a' => exact hxy.elim
      | error e' =>
        obtain ⟨rfl, rfl, hw⟩ := hxy
        refine .pure ⟨?_, hw⟩
        exact (apply_ite φ (e.allowPartial = true) q pos).symm

/-- The induction is on how the blocks are related. -/
theorem Block.exec_move (hφ : StrictMono φ) (small big : Source σ) (cfg : Config) (n : Nat)
    (hcall : ∀ {β : Type} (p : Parser σ τ β), p.Movable adapters → ∀ q,
      Lockstep (Moved φ) (fun r r' => r' = r.move φ) (call p q) (call' p (φ q)))
    {ν α : Type} {held : ν → ν → Prop} {kept : α → α → Prop} {body body' : Block σ τ ν α}
    (h : body.Moves φ held kept body') : body.Movable adapters → ∀ pos v v', held v v' →
      Lockstep (Moved φ) (EndsMoved φ held kept) (body.exec call small cfg n pos v)
        (body'.exec call' big cfg n (φ pos) v') := by
  induction h with
  | ret h =>
    intro _ pos v v' hv
    rw [exec, exec]
    exact .pure ⟨h, rfl, hv⟩
  | abort e =>
    intro _ pos v v' hv
    rw [exec, exec]
    exact .pure ⟨rfl, rfl, hv⟩
  | perform _ _ ihok iherror =>
    intro hb pos v v' hv
    rw [exec, exec]
    refine (hcall _ hb.1 pos).bindOutcome (fun q b => ?_) fun q => ?_
    · exact ihok b (hb.2 _) q v v' hv
    · exact iherror pos (hb.2 _) pos v v' hv
  | many _ ih =>
    intro hb pos v v' hv
    rw [exec, exec]
    refine (Lockstep.manyLoop hφ (hcall _ hb.1) n none pos).bind fun x y hxy => ?_
    subst hxy
    exact ih x.1 (hb.2 _) x.2 v v' hv
  | attempt _ _ _ ihbody ihsome ihnone =>
    intro hb pos v v' hv
    rw [exec, exec]
    refine (ihbody hb.1 pos v v' hv).bind fun x y hxy => ?_
    obtain ⟨r, q, w⟩ := x
    obtain ⟨r', q', w'⟩ := y
    cases r with
    | ok b =>
      cases r' with
      | error e' => exact hxy.elim
      | ok b' =>
        obtain ⟨hkept, rfl, hw⟩ := hxy
        exact ihsome b b' hkept (hb.2 _) q w w' hw
    | error e =>
      cases r' with
      | ok b' => exact hxy.elim
      | error e' =>
        obtain ⟨rfl, rfl, hw⟩ := hxy
        dsimp only [Abort.move]
        rw [← apply_ite φ]
        exact ihnone (hb.2 _) _ w w' hw
  | loop _ _ ihbody ihnext =>
    intro hb pos v v' hv
    rw [exec, exec]
    refine (Lockstep.passLoop hφ (ihbody hb.1) n pos hv).bind fun x y hxy => ?_
    obtain ⟨q, w⟩ := x
    obtain ⟨q', w'⟩ := y
    obtain ⟨rfl, hw⟩ := hxy
    exact ihnext hb.2 q w w' hw
  | ask _ ih =>
    intro hb pos v v' hv
    rw [exec, exec]
    exact ih small big cfg (hb _ _) pos v v' hv
  | get _ ih =>
    intro hb pos v v' hv
    rw [exec, exec]
    exact ih v v' hv (hb _) pos v v' hv
  | set hw _ ih =>
    intro hb pos v v' hv
    rw [exec, exec]
    exact ih hb pos _ _ hw

end Bodies

/-! ## Sources that read alike -/

/-- Positions of the small source are positions of the big one under `φ`, and the big source reads
there as the small one does. With `adapters`, that includes what is peculiar to texts. -/
structure Source.Embeds (φ : Nat → Nat) (adapters : Prop) (small big : Source σ) : Prop where
  strictMono : StrictMono φ
  len_le : ∀ i, big.len ≤ φ i ↔ small.len ≤ i
  symbolAt : ∀ i, Option.Rel (fun x y => y.1 = x.1 ∧ φ i + y.2 = φ (i + x.2))
    (small.symbolAt? i) (big.symbolAt? (φ i))
  textFrom : adapters → ∀ i, big.textFrom? (φ i) = small.textFrom? i
  textBetween : adapters → ∀ i j, big.textBetween? (φ i) (φ j) = small.textBetween? i j
  add : adapters → ∀ i width, φ i + width = φ (i + width)

section Leaves

variable {φ : Nat → Nat} {adapters : Prop} {small big : Source σ}

theorem Source.Embeds.matchSymbols [BEq σ] (h : small.Embeds φ adapters big) (xs : List σ)
    (pos : Nat) : big.matchSymbols? xs (φ pos) = (small.matchSymbols? xs pos).map φ := by
  induction xs generalizing pos with
  | nil => rfl
  | cons x xs ih =>
    have hsymbol := h.symbolAt pos
    rw [matchSymbols?, matchSymbols?]
    generalize small.symbolAt? pos = y, big.symbolAt? (φ pos) = z at hsymbol
    cases hsymbol with
    | none => rfl
    | @some y z hyz =>
      obtain ⟨y, w⟩ := y
      obtain ⟨z, w'⟩ := z
      obtain ⟨rfl, hw⟩ := hyz
      dsimp only at hw ⊢
      split
      · rw [hw, ih]
      · rfl

namespace Act.Lockstep

theorem symbolWhere (h : small.Embeds φ adapters big) (pos : Nat) (accept : σ → Bool)
    {reject reject' : Act (Outcome σ)}
    (hreject : Lockstep (Moved φ) (fun r r' => r' = r.move φ) reject reject') :
    Lockstep (Moved φ) (fun r r' => r' = r.move φ)
      (Backtrack.symbolWhere small pos accept reject)
      (Backtrack.symbolWhere big (φ pos) accept reject') := by
  have hsymbol := h.symbolAt pos
  rw [Backtrack.symbolWhere, Backtrack.symbolWhere]
  generalize small.symbolAt? pos = y, big.symbolAt? (φ pos) = z at hsymbol
  cases hsymbol with
  | none => exact hreject
  | @some y z hyz =>
    obtain ⟨y, w⟩ := y
    obtain ⟨z, w'⟩ := z
    obtain ⟨rfl, hw⟩ := hyz
    dsimp only at hw ⊢
    split
    · exact .pure (by rw [hw, Outcome.move])
    · exact hreject

theorem forM_register [Describe σ] (hφ : StrictMono φ) (xs : List σ) (pos : Nat) :
    Lockstep (Moved φ) (fun _ _ => True)
      (xs.forM fun x => Act.register pos (some (.expected pos (describe x))))
      (xs.forM fun x => Act.register (φ pos) (some (.expected (φ pos) (describe x)))) := by
  induction xs with
  | nil => exact .pure trivial
  | cons x xs ih => exact (register hφ pos (some (.expected pos _))).bind fun _ _ _ => ih

theorem expectEach [Describe σ] (hφ : StrictMono φ) (xs : List σ) (pos : Nat) :
    Lockstep (Moved φ) (fun r r' => r' = r.move φ)
      (Backtrack.expectEach xs pos : Act (Outcome α)) (Backtrack.expectEach xs (φ pos)) := by
  have heach : Lockstep (Moved φ) (fun (r r' : Outcome α) => r' = r.move φ)
      (do xs.forM fun x => Act.register pos (some (.expected pos (describe x))); return .fail pos)
      (do xs.forM fun x => Act.register (φ pos) (some (.expected (φ pos) (describe x)))
          return .fail (φ pos)) :=
    (forM_register hφ xs pos).bind fun _ _ _ => .pure rfl
  rw [Backtrack.expectEach, Backtrack.expectEach]
  cases xs with
  | nil => exact (register hφ pos none).bind fun _ _ _ => heach
  | cons x xs => exact heach

theorem charWhere (h : small.Embeds φ adapters big) (ha : adapters) (pos : Nat)
    (accept : Char → Bool) :
    Lockstep (Moved φ) (fun r r' => r' = r.move φ) (Backtrack.charWhere small pos accept)
      (Backtrack.charWhere big (φ pos) accept) := by
  rw [Backtrack.charWhere, Backtrack.charWhere, h.textFrom ha]
  split
  · split
    · exact .pure (by rw [h.add ha, Outcome.move])
    · exact mismatch h.strictMono pos
  · exact mismatch h.strictMono pos

theorem regexWhere (h : small.Embeds φ adapters big) (ha : adapters) (re : Regex) (pos : Nat)
    (value : Regex.Match → List Char → α) :
    Lockstep (Moved φ) (fun r r' => r' = r.move φ) (Backtrack.regexWhere small re pos value)
      (Backtrack.regexWhere big re (φ pos) value) := by
  rw [Backtrack.regexWhere, Backtrack.regexWhere, h.textFrom ha]
  split
  · split
    · exact .pure (by rw [h.add ha, Outcome.move])
    · exact mismatch h.strictMono pos
  · exact mismatch h.strictMono pos

/-- A label counts the same records in both runs. -/
theorem label (hφ : StrictMono φ) {a b : Act (Outcome α)} {pos : Nat} (name : String)
    (hab : Lockstep (Moved φ) (fun r r' => r' = r.move φ) a b) :
    Lockstep (Moved φ) (fun r r' => r' = r.move φ)
      (do
        let before := (← Act.currentSink).checkpoint
        match ← a with
        | .ok q x => return .ok q x
        | .fail q =>
          let length := (← Act.currentSink).countSince before
          Act.failWith (.label pos length name) q)
      (do
        let before := (← Act.currentSink).checkpoint
        match ← b with
        | .ok q x => return .ok q x
        | .fail q =>
          let length := (← Act.currentSink).countSince before
          Act.failWith (.label (φ pos) length name) q) := by
  refine currentSink.bind fun before before' hbefore => ?_
  subst hbefore
  refine hab.bindOutcome (fun q x => .pure rfl) fun q => ?_
  refine currentSink.bind fun after after' hafter => ?_
  subst hafter
  rw [Sink.countSince_move hφ]
  exact failWith hφ (.label pos _ name) q

end Act.Lockstep

end Leaves

/-! ## Every parser -/

/-- On two sources of which one is embedded in the other, a parser that does not look at positions
runs in lockstep. One case for each kind of parser, by induction on the bound. -/
theorem Parser.run_move [BEq σ] [Describe σ] {env : Env σ τ} {φ : Nat → Nat}
    {adapters : Prop} {big : Source σ} (h : env.source.Embeds φ adapters big)
    (henv : env.Movable adapters) (n : Nat) (p : Parser σ τ α) (hp : p.Movable adapters)
    (pos : Nat) :
    Lockstep (Moved φ) (fun r r' => r' = r.move φ) (p.run env n pos)
      (p.run { env with source := big } n (φ pos)) := by
  have hφ := h.strictMono
  induction n generalizing α p pos with
  | zero => exact .exceeded
  | succ n ih =>
    cases p with
    | pure a => exact .pure rfl
    | fail what =>
      cases what with
      | none => exact .mismatch hφ pos
      | some what => exact .failWith hφ (.expected pos what) pos
    | any => exact .symbolWhere h pos _ (.mismatch hφ pos)
    | eoi =>
      rw [run, run]
      simp only [h.len_le]
      split
      · exact .pure rfl
      · exact .failWith hφ (.expected pos _) pos
    | el x => exact .symbolWhere h pos _ (.failWith hφ (.expected pos _) pos)
    | oneOf set => exact .symbolWhere h pos _ (.expectEach hφ _ pos)
    | noneOf set => exact .symbolWhere h pos _ (.mismatch hφ pos)
    | satisfy pred => exact .symbolWhere h pos pred (.mismatch hφ pos)
    | literal pattern =>
      rw [run, run, h.matchSymbols]
      cases env.source.matchSymbols? pattern.toList pos with
      | some q => exact .pure rfl
      | none => exact .failWith hφ (.expected pos _) pos
    | charWith pred => exact .charWhere h hp pos pred
    | regexGroup re i => exact .regexWhere h hp re pos _
    | regexGroups | recognize | function => exact hp.elim
    | covered p =>
      rw [run, run]
      refine (ih p hp.2 pos).isolated.bindOutcome (fun q a => ?_) fun q => .mismatch hφ pos
      simp only [h.textBetween hp.1]
      split
      · exact .pure rfl
      · exact .mismatch hφ pos
    | map p f =>
      rw [run, run]
      exact (ih p hp pos).bindOutcome (fun q a => .pure rfl) fun q => .pure rfl
    | flatMap p next =>
      rw [run, run]
      exact (ih p hp.1 pos).bindOutcome (fun q a => ih (next a) (hp.2 a) q) fun q => .pure rfl
    | andMap p q f =>
      rw [run, run]
      refine (ih p hp.1 pos).bindOutcome (fun e a => ?_) fun q => .pure rfl
      exact (ih q hp.2 e).bindOutcome (fun e b => .pure rfl) fun q => .pure rfl
    | between p pre post =>
      obtain ⟨hp, hpre, hpost⟩ := hp
      rw [run, run]
      refine (ih pre hpre pos).bindOutcome (fun e b => ?_) fun q => .pure rfl
      refine (ih p hp e).bindOutcome (fun e a => ?_) fun q => .pure rfl
      exact (ih post hpost e).bindOutcome (fun e c => .pure rfl) fun q => .pure rfl
    | either p q =>
      rw [run, run]
      refine (ih p hp.1 pos).bindOutcome (fun e a => .pure rfl) fun _ => ?_
      exact (ih q hp.2 pos).bindOutcome (fun e a => .pure rfl) fun _ => .pure rfl
    | choice ps =>
      cases ps with
      | nil => exact (Lockstep.register hφ pos none).bind fun _ _ _ => .pure rfl
      | cons p ps =>
        rw [run, run]
        exact .firstOf _ (fun p' hp' => ih p' (Parsers.Movable.of_mem hp p' hp')) pos
    | option p d =>
      rw [run, run]
      exact (ih p hp pos).bindOutcome (fun e a => .pure rfl) fun q => .pure rfl
    | opt p =>
      rw [run, run]
      exact (ih p hp pos).bindOutcome (fun e a => .pure rfl) fun q => .pure rfl
    | seq ps allowPartial =>
      rw [run, run]
      exact .inOrder _ _ (fun p' hp' => ih p' (Parsers.Movable.of_mem hp p' hp')) pos
    | many p bounds =>
      rw [run, run]
      refine (Lockstep.manyLoop hφ (ih p hp) n bounds.max pos).bind fun x y hxy => ?_
      subst hxy
      exact .atLeast hφ _ _ _ _
    | manyAccum p init f bounds =>
      rw [run, run]
      refine (Lockstep.foldLoop hφ (ih p hp) f n bounds.max init 0 pos).bind fun x y hxy => ?_
      subst hxy
      exact .atLeast hφ _ _ _ _
    | sepBy p sep bounds =>
      rw [run, run]
      split
      · exact .atLeast hφ _ _ _ _
      · refine (ih p hp.1 pos).bindOutcome (fun q a => ?_) fun _ => .atLeast hφ _ _ _ _
        refine (Lockstep.sepLoop hφ (ih p hp.1) (ih sep hp.2) n _ q).bind fun x y hxy => ?_
        subst hxy
        exact .atLeast hφ _ _ _ _
    | lookAhead p =>
      rw [run, run]
      exact (ih p hp pos).bindOutcome (fun q a => .pure rfl) fun q => .pure rfl
    | notFollowedBy p =>
      rw [run, run]
      exact (ih p hp pos).bindOutcome (fun q a => .mismatch hφ pos) fun q => .pure rfl
    | label p name =>
      rw [run, run]
      exact .label hφ name (ih p hp pos)
    | lazy id p =>
      rw [run, run]
      exact (Lockstep.build id).bind fun _ _ _ => ih p hp pos
    | rule i =>
      rw [run, run]
      dsimp only
      cases hrule : env.rules i with
      | some p => exact ih p (henv i p hrule) pos
      | none => exact .mismatch hφ pos
    | block init body =>
      obtain ⟨hbody, hfree⟩ := hp
      obtain ⟨held, hinit, hmoves⟩ := hfree φ
      rw [run, run]
      refine (Block.exec_move hφ env.source big env.config n ih hmoves hbody pos init init
        hinit).bind fun x y hxy => ?_
      obtain ⟨r, q, v⟩ := x
      obtain ⟨r', q', v'⟩ := y
      cases r with
      | ok a =>
        cases r' with
        | ok a' =>
          obtain ⟨rfl, rfl, -⟩ := hxy
          exact .pure rfl
        | error e' => exact hxy.elim
      | error e =>
        cases r' with
        | ok a' => exact hxy.elim
        | error e' =>
          obtain ⟨rfl, -, -⟩ := hxy
          exact .pure rfl

/-- What a parser that does not look at positions comes to on the big source is what it comes to on
the small one, moved. -/
theorem Parser.run_moved [BEq σ] [Describe σ] {env : Env σ τ} {φ : Nat → Nat}
    {adapters : Prop} {big : Source σ} (h : env.source.Embeds φ adapters big)
    (henv : env.Movable adapters) {p : Parser σ τ α} (hp : p.Movable adapters) (n pos : Nat)
    (s : State) : p.run { env with source := big } n (φ pos) (s.move φ) =
      (p.run env n pos s).map fun x => (x.1.move φ, x.2.move φ) := by
  have hrel := run_move h henv n p hp pos s _ rfl
  generalize p.run env n pos s = x, p.run { env with source := big } n (φ pos) (s.move φ) = y
    at hrel
  cases hrel with
  | none => rfl
  | some hxy => exact congrArg some (Prod.ext hxy.1 hxy.2)

end Backtrack
