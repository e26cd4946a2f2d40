import Backtrack.Parser.Run

/-!
# The semantics of parsing expression grammars

`Derives env p pos r` says, by rules and without a sink, that `p` comes to `r` at the position
`pos`: to the end and the value of a success, or to nothing, which is a failure. There are rules for
the generic leaves and for the combinators, and the parsers of a grammar may refer to each other as
they like; parsers of this kind are `Parser.IsPeg`.

A parser that goes on for ever comes to nothing at all, neither to a success nor to a failure: there
is no derivation for it.
-/

namespace Backtrack

variable {σ ι : Type} {τ : ι → Type} {α : Type}

/-- The symbols stand in the source from one position to another. -/
inductive Source.Reads (src : Source σ) : List σ → Nat → Nat → Prop where
  | nil {pos : Nat} : src.Reads [] pos pos
  | cons {x : σ} {xs : List σ} {width pos q : Nat} (hx : src.symbolAt? pos = some (x, width))
    (hxs : src.Reads xs (pos + width) q) : src.Reads (x :: xs) pos q

/-- The parser reads one symbol, any of those that are accepted. -/
inductive Parser.ReadsOne : Parser σ τ σ → (σ → Prop) → Prop where
  | any : ReadsOne .any fun _ => True
  | el (x : σ) : ReadsOne (.el x) (· = x)
  | oneOf (set : Pattern σ) : ReadsOne (.oneOf set) (· ∈ set.toList)
  | noneOf (set : Pattern σ) : ReadsOne (.noneOf set) (· ∉ set.toList)
  | satisfy (pred : σ → Bool) : ReadsOne (.satisfy pred) (pred · = true)

/-- What repetition comes to: a failure if there were too few, or where it ended. -/
def Bounds.accept {α : Type} (bounds : Bounds) (count : Nat) (x : Nat × α) : Option (Nat × α) :=
  if count < bounds.min then none else some x

mutual

/-- What a parser comes to at a position: the end and the value of a success, or a failure. -/
inductive Derives (env : Env σ τ) : {α : Type} → Parser σ τ α → Nat → Option (Nat × α) → Prop where
  | pure {α : Type} {a : α} {pos : Nat} : Derives env (.pure a) pos (some (pos, a))
  | fail {α : Type} {what : Option String} {pos : Nat} :
    Derives env (.fail what : Parser σ τ α) pos none
  | symbol {p : Parser σ τ σ} {accept : σ → Prop} {pos width : Nat} {x : σ} (hp : p.ReadsOne accept)
    (hx : env.source.symbolAt? pos = some (x, width)) (haccept : accept x) :
    Derives env p pos (some (pos + width, x))
  | noSymbol {p : Parser σ τ σ} {accept : σ → Prop} {pos : Nat} (hp : p.ReadsOne accept)
    (h : ∀ x width, env.source.symbolAt? pos = some (x, width) → ¬ accept x) :
    Derives env p pos none
  | eoi {pos : Nat} (h : env.source.len ≤ pos) : Derives env .eoi pos (some (pos, ()))
  | notEoi {pos : Nat} (h : pos < env.source.len) : Derives env .eoi pos none
  | literal {pattern : Pattern σ} {pos q : Nat} (h : env.source.Reads pattern.toList pos q) :
    Derives env (.literal pattern) pos (some (q, pattern))
  | noLiteral {pattern : Pattern σ} {pos : Nat}
    (h : ∀ q, ¬ env.source.Reads pattern.toList pos q) : Derives env (.literal pattern) pos none
  | map {α β : Type} {p : Parser σ τ α} {f : α → β} {pos : Nat} {r : Option (Nat × α)}
    (h : Derives env p pos r) : Derives env (.map p f) pos (r.map fun (q, a) => (q, f a))
  | flatMap {α β : Type} {p : Parser σ τ α} {next : α → Parser σ τ β} {pos q : Nat} {a : α}
    {r : Option (Nat × β)} (hp : Derives env p pos (some (q, a)))
    (hnext : Derives env (next a) q r) : Derives env (.flatMap p next) pos r
  | flatMap_fail {α β : Type} {p : Parser σ τ α} {next : α → Parser σ τ β} {pos : Nat}
    (hp : Derives env p pos none) : Derives env (.flatMap p next) pos none
  | andMap {α β γ : Type} {p : Parser σ τ α} {q : Parser σ τ β} {f : α → β → γ} {pos e : Nat}
    {a : α} {r : Option (Nat × β)} (hp : Derives env p pos (some (e, a))) (hq : Derives env q e r) :
    Derives env (.andMap p q f) pos (r.map fun (e, b) => (e, f a b))
  | andMap_fail {α β γ : Type} {p : Parser σ τ α} {q : Parser σ τ β} {f : α → β → γ} {pos : Nat}
    (hp : Derives env p pos none) : Derives env (.andMap p q f) pos none
  | between {α β γ : Type} {p : Parser σ τ α} {pre : Parser σ τ β} {post : Parser σ τ γ}
    {pos d e : Nat} {a : α} {b : β} {r : Option (Nat × γ)}
    (hpre : Derives env pre pos (some (d, b))) (hp : Derives env p d (some (e, a)))
    (hpost : Derives env post e r) :
    Derives env (.between p pre post) pos (r.map fun (e, _) => (e, a))
  | between_pre {α β γ : Type} {p : Parser σ τ α} {pre : Parser σ τ β} {post : Parser σ τ γ}
    {pos : Nat} (hpre : Derives env pre pos none) : Derives env (.between p pre post) pos none
  | between_fail {α β γ : Type} {p : Parser σ τ α} {pre : Parser σ τ β} {post : Parser σ τ γ}
    {pos d : Nat} {b : β} (hpre : Derives env pre pos (some (d, b))) (hp : Derives env p d none) :
    Derives env (.between p pre post) pos none
  | either_left {α : Type} {p q : Parser σ τ α} {pos : Nat} {x : Nat × α}
    (hp : Derives env p pos (some x)) : Derives env (.either p q) pos (some x)
  | either_right {α : Type} {p q : Parser σ τ α} {pos : Nat} {r : Option (Nat × α)}
    (hp : Derives env p pos none) (hq : Derives env q pos r) : Derives env (.either p q) pos r
  | choice_nil {α : Type} {pos : Nat} : Derives env (.choice .nil : Parser σ τ α) pos none
  | choice_first {α : Type} {p : Parser σ τ α} {ps : Parsers σ τ α} {pos : Nat} {x : Nat × α}
    (hp : Derives env p pos (some x)) : Derives env (.choice (.cons p ps)) pos (some x)
  | choice_later {α : Type} {p : Parser σ τ α} {ps : Parsers σ τ α} {pos : Nat}
    {r : Option (Nat × α)} (hp : Derives env p pos none) (hps : Derives env (.choice ps) pos r) :
    Derives env (.choice (.cons p ps)) pos r
  | option {α : Type} {p : Parser σ τ α} {default : α} {pos : Nat} {r : Option (Nat × α)}
    (hp : Derives env p pos r) : Derives env (.option p default) pos (some (r.getD (pos, default)))
  | opt {α : Type} {p : Parser σ τ α} {pos : Nat} {r : Option (Nat × α)}
    (hp : Derives env p pos r) : Derives env (.opt p) pos
      (some ((r.map fun (q, a) => (q, Option.some a)).getD (pos, Option.none)))
  | seq_nil {α : Type} {allowPartial : Bool} {pos : Nat} :
    Derives env (.seq .nil allowPartial : Parser σ τ (List α)) pos (some (pos, []))
  | seq_cons {α : Type} {p : Parser σ τ α} {ps : Parsers σ τ α} {allowPartial : Bool} {pos q : Nat}
    {a : α} {r : Option (Nat × List α)} (hp : Derives env p pos (some (q, a)))
    (hps : Derives env (.seq ps allowPartial) q r) :
    Derives env (.seq (.cons p ps) allowPartial) pos (r.map fun (e, as) => (e, a :: as))
  | seq_fail {α : Type} {p : Parser σ τ α} {ps : Parsers σ τ α} {pos : Nat}
    (hp : Derives env p pos none) : Derives env (.seq (.cons p ps) false) pos none
  | seq_stop {α : Type} {p : Parser σ τ α} {ps : Parsers σ τ α} {pos : Nat}
    (hp : Derives env p pos none) : Derives env (.seq (.cons p ps) true) pos (some (pos, []))
  | many {α : Type} {p : Parser σ τ α} {bounds : Bounds} {pos e : Nat} {as : List α}
    (h : Chain env p bounds.max pos as e) :
    Derives env (.many p bounds) pos (bounds.accept as.length (e, as))
  | manyAccum {α β : Type} {p : Parser σ τ α} {init : β} {f : β → α → β} {bounds : Bounds}
    {pos e : Nat} {as : List α} (h : Chain env p bounds.max pos as e) :
    Derives env (.manyAccum p init f bounds) pos (bounds.accept as.length (e, as.foldl f init))
  | sepBy {α β : Type} {p : Parser σ τ α} {sep : Parser σ τ β} {bounds : Bounds} {pos q e : Nat}
    {a : α} {as : List α} (hmax : bounds.max ≠ some 0) (hp : Derives env p pos (some (q, a)))
    (h : Chain env (sep.andThen p) (bounds.max.map (· - 1)) q as e) :
    Derives env (.sepBy p sep bounds) pos (bounds.accept (as.length + 1) (e, a :: as))
  | sepBy_none {α β : Type} {p : Parser σ τ α} {sep : Parser σ τ β} {bounds : Bounds} {pos : Nat}
    (hmax : bounds.max ≠ some 0) (hp : Derives env p pos none) :
    Derives env (.sepBy p sep bounds) pos (bounds.accept 0 (pos, []))
  | sepBy_zero {α β : Type} {p : Parser σ τ α} {sep : Parser σ τ β} {bounds : Bounds} {pos : Nat}
    (hmax : bounds.max = some 0) : Derives env (.sepBy p sep bounds) pos (bounds.accept 0 (pos, []))
  | lookAhead {α : Type} {p : Parser σ τ α} {pos : Nat} {r : Option (Nat × α)}
    (hp : Derives env p pos r) : Derives env (.lookAhead p) pos (r.map fun (_, a) => (pos, a))
  | notFollowedBy {α : Type} {p : Parser σ τ α} {pos : Nat} (hp : Derives env p pos none) :
    Derives env (.notFollowedBy p) pos (some (pos, ()))
  | followedBy {α : Type} {p : Parser σ τ α} {pos : Nat} {x : Nat × α}
    (hp : Derives env p pos (some x)) : Derives env (.notFollowedBy p) pos none
  | label {α : Type} {p : Parser σ τ α} {name : String} {pos : Nat} {r : Option (Nat × α)}
    (hp : Derives env p pos r) : Derives env (.label p name) pos r
  | lazy {α : Type} {id : Nat} {p : Parser σ τ α} {pos : Nat} {r : Option (Nat × α)}
    (hp : Derives env p pos r) : Derives env (.lazy id p) pos r
  | rule {i : ι} {p : Parser σ τ (τ i)} {pos : Nat} {r : Option (Nat × τ i)}
    (hi : env.rules i = some p) (hp : Derives env p pos r) : Derives env (.rule i) pos r
  | undefined {i : ι} {pos : Nat} (hi : env.rules i = none) : Derives env (.rule i) pos none

/-- The successes of a parser one after another, each ahead of the one before, as long as there are
any and not more than a limit. -/
inductive Chain (env : Env σ τ) :
    {α : Type} → Parser σ τ α → Option Nat → Nat → List α → Nat → Prop where
  | full {α : Type} {p : Parser σ τ α} {pos : Nat} : Chain env p (some 0) pos [] pos
  | stop {α : Type} {p : Parser σ τ α} {limit : Option Nat} {pos : Nat} (hlimit : limit ≠ some 0)
    (hp : Derives env p pos none) : Chain env p limit pos [] pos
  | idle {α : Type} {p : Parser σ τ α} {limit : Option Nat} {pos q : Nat} {a : α}
    (hlimit : limit ≠ some 0) (hp : Derives env p pos (some (q, a))) (hq : q ≤ pos) :
    Chain env p limit pos [] pos
  | next {α : Type} {p : Parser σ τ α} {limit : Option Nat} {pos q e : Nat} {a : α} {as : List α}
    (hlimit : limit ≠ some 0) (hp : Derives env p pos (some (q, a))) (hq : pos < q)
    (hrest : Chain env p (limit.map (· - 1)) q as e) : Chain env p limit pos (a :: as) e

end

mutual

/-- The parser is made of the generic leaves and combinators, and of rules. -/
def Parser.IsPeg : {α : Type} → Parser σ τ α → Prop
  | _, .pure _ | _, .fail _ | _, .any | _, .eoi | _, .el _ | _, .oneOf _ | _, .noneOf _
  | _, .satisfy _ | _, .literal _ | _, .rule _ => True
  | _, .map p _ | _, .option p _ | _, .opt p | _, .many p _ | _, .manyAccum p ..
  | _, .lookAhead p | _, .notFollowedBy p | _, .label p _ | _, .lazy _ p => p.IsPeg
  | _, .flatMap p next => p.IsPeg ∧ ∀ a, (next a).IsPeg
  | _, .andMap p q _ => p.IsPeg ∧ q.IsPeg
  | _, .sepBy p sep _ => p.IsPeg ∧ sep.IsPeg
  | _, .either p q => p.IsPeg ∧ q.IsPeg
  | _, .between p pre post => p.IsPeg ∧ pre.IsPeg ∧ post.IsPeg
  | _, .choice ps | _, .seq ps _ => ps.IsPeg
  | _, .charWith _ | _, .regexGroup .. | _, .regexGroups _ | _, .covered _ | _, .recognize _
  | _, .block .. | _, .function _ => False

/-- Every parser of the list is. -/
def Parsers.IsPeg : {α : Type} → Parsers σ τ α → Prop
  | _, .nil => True
  | _, .cons p ps => p.IsPeg ∧ ps.IsPeg

end

/-- Every rule that is defined is. -/
def Env.IsPeg (env : Env σ τ) : Prop := ∀ i p, env.rules i = some p → p.IsPeg

theorem Parsers.IsPeg.of_mem : ∀ {ps : Parsers σ τ α}, ps.IsPeg → ∀ p ∈ ps.toList, p.IsPeg
  | .nil, _, p, hp => by simp [Parsers.toList] at hp
  | .cons q qs, h, p, hp => by
    rw [Parsers.IsPeg] at h
    rw [Parsers.toList, List.mem_cons] at hp
    rcases hp with rfl | hp
    · exact h.1
    · exact h.2.of_mem p hp

end Backtrack
