import Backtrack.Proofs.ComesTo
import Backtrack.Proofs.Rules.Sweep
import Mathlib.Logic.Function.Basic

/-!
# Rules and their owners

Rules are created, shared, defined, dropped and run, in any order. A history is a list of such
operations, the latest first. What it says of owners and definitions is kept in a book
(`RuleBook.of`), which nothing is ever removed from.

- **The book**: a rule has one owner more for every operation that makes one, and one less for every
  owner that is dropped or moved into a parser. Its definition is the first one that it was given.
- **The store follows the book** (`RuleStore.Follows`): it has the rules that are not lost by the
  book, each with the definition and the number of owners that are written there. Every operation
  keeps this, whatever it sweeps away (`RuleStore.follows_after`).
- **Clones for a definition**: to make them and then to define the rule with them is one change of
  the store (`RuleStore.after_define_clones`), since a book determines what store follows it.
- **What follows** (`RuleStore.rules_live_while_owned`): when a rule exists, what a run of it does,
  what becomes of a second definition, and what goes with the last owner of a rule.
-/

namespace Backtrack

universe u

open Relation

/-! ## Histories -/

/-- What can be done with rules. -/
inductive RuleOp (δ : Nat → Type u) where
  /-- A new rule, with its first owner. -/
  | create
  /-- Another owner of a rule. -/
  | clone (i : Nat)
  /-- A mere reference to a rule. -/
  | handle (i : Nat)
  /-- A parser is given to a rule as its definition, with the owners that were moved into it. -/
  | define (i : Nat) (d : Definition (δ i))
  /-- An owner is given up. -/
  | drop (i : Nat)
  /-- A run through an owner or a handle of a rule. -/
  | run (i : Nat)

namespace RuleStore

variable {δ : Nat → Type u}

/-- Some owners less. -/
def releaseAll (store : RuleStore δ) (is : List Nat) : RuleStore δ := is.foldl release store

/-- The store after an operation. Owners that were moved into a parser are no longer outside, and
have ceased to exist with it if it is refused. -/
def perform (store : RuleStore δ) : RuleOp δ → RuleStore δ
  | .create => store.create.2
  | .clone i => store.acquire i
  | .handle _ | .run _ => store
  | .define i d =>
    match store.define i d with
    | .ok defined => defined.releaseAll d.owns
    | .error _ => store.releaseAll d.owns
  | .drop i => store.release i

/-- What an operation answers. -/
def answer (store : RuleStore δ) : RuleOp δ → Except RuleError Unit
  | .define i d => (store.define i d).map fun _ => ()
  | _ => .ok ()

/-- The store after a history. -/
def after : List (RuleOp δ) → RuleStore δ
  | [] => .empty
  | op :: history => (after history).perform op

end RuleStore

/-! ## Books -/

/-- What a history says of rules: how many were created, how many owners each one has outside of
all definitions, and its first definition. -/
structure RuleBook (δ : Nat → Type u) where
  created : Nat := 0
  outside : Nat → Nat := fun _ => 0
  definition : (i : Nat) → Option (Definition (δ i)) := fun _ => none

namespace RuleBook

variable {δ : Nat → Type u}

/-- The definition of the rule `j` owns the rule `i`. -/
def Owns (b : RuleBook δ) (j i : Nat) : Prop := ∃ d, b.definition j = some d ∧ i ∈ d.owns

/-- The rules that are lost by the book. -/
def Lost (b : RuleBook δ) : Nat → Prop := Backtrack.Lost b.outside b.Owns

/-- A new rule, with one owner. -/
def create (b : RuleBook δ) : RuleBook δ :=
  { b with created := b.created + 1, outside := Function.update b.outside b.created 1 }

/-- One more owner. -/
def gain (b : RuleBook δ) (i : Nat) : RuleBook δ :=
  { b with outside := Function.update b.outside i (b.outside i + 1) }

/-- Some owners less. -/
def give (b : RuleBook δ) (is : List Nat) : RuleBook δ :=
  { b with outside := fun i => b.outside i - is.count i }

/-- A definition, for a rule that has none yet. -/
def define (b : RuleBook δ) (i : Nat) (d : Definition (δ i)) : RuleBook δ :=
  { b with definition := Function.update b.definition i ((b.definition i).or (some d)) }

/-- The book of a history. -/
def of : List (RuleOp δ) → RuleBook δ
  | [] => {}
  | .create :: history => (of history).create
  | .clone i :: history => (of history).gain i
  | .handle _ :: history | .run _ :: history => of history
  | .define i d :: history => ((of history).define i d).give d.owns
  | .drop i :: history => (of history).give [i]

end RuleBook

/-! ## What a new entry changes -/

namespace RuleBook

variable {δ : Nat → Type u} {b : RuleBook δ} {i j k : Nat} {d : Definition (δ i)}
  {history : List (RuleOp δ)}

theorem not_lost_of_outside (hi : 0 < b.outside i) : ¬ b.Lost i :=
  fun hlost => Nat.ne_of_gt hi (lost_iff.mp hlost).1

theorem outside_create_self : b.create.outside b.created = 1 :=
  Function.update_self _ _ _

theorem outside_create_of_ne (h : j ≠ b.created) : b.create.outside j = b.outside j :=
  Function.update_of_ne h _ _

/-- A new rule is held by its owner. The others are held as before. -/
theorem lost_create (h : ∀ k d, b.definition k = some d → k < b.created) :
    b.create.Lost j ↔ j ≠ b.created ∧ b.Lost j := by
  constructor
  · intro hj
    refine ⟨?_, Backtrack.Lost.mono hj (fun k hk => ?_) fun _ _ => id⟩
    · rintro rfl
      have hzero := (lost_iff.mp hj).1
      rw [outside_create_self] at hzero
      cases hzero
    · by_cases hkc : k = b.created
      · rw [hkc, outside_create_self] at hk
        cases hk
      · rwa [outside_create_of_ne hkc] at hk
  · rintro ⟨hjc, hj⟩
    induction hj with
    | @intro j hj _ ih =>
      refine .intro ((outside_create_of_ne hjc).trans hj) fun k hk => ih k hk ?_
      obtain ⟨d, hd, -⟩ := hk
      exact Nat.ne_of_lt (h k d hd)

theorem outside_gain_self : (b.gain i).outside i = b.outside i + 1 :=
  Function.update_self _ _ _

theorem outside_gain_of_ne (h : j ≠ i) : (b.gain i).outside j = b.outside j :=
  Function.update_of_ne h _ _

theorem outside_gain_eq_zero (hi : 0 < b.outside i) :
    (b.gain i).outside j = 0 ↔ b.outside j = 0 := by
  by_cases hj : j = i
  · rw [hj, outside_gain_self]
    omega
  · rw [outside_gain_of_ne hj]

/-- Another owner of a rule that has one changes nothing about what is lost. -/
theorem lost_gain (hi : 0 < b.outside i) : (b.gain i).Lost j ↔ b.Lost j := by
  constructor
  · exact fun hj => Backtrack.Lost.mono hj (fun k => (outside_gain_eq_zero hi).mp) fun _ _ => id
  · exact fun hj => Backtrack.Lost.mono hj (fun k => (outside_gain_eq_zero hi).mpr) fun _ _ => id

theorem definition_define_self :
    (b.define i d).definition i = (b.definition i).or (some d) :=
  Function.update_self _ _ _

theorem definition_define_of_ne (h : j ≠ i) :
    (b.define i d).definition j = b.definition j :=
  Function.update_of_ne h _ _

theorem owns_define (hundefined : b.definition i = none) :
    (b.define i d).Owns j k ↔ b.Owns j k ∨ j = i ∧ k ∈ d.owns := by
  by_cases hj : j = i
  · subst hj
    simp [Owns, definition_define_self, hundefined]
  · simp [Owns, definition_define_of_ne hj, hj]

/-- A definition whose rules are held from outside as well changes nothing about what is lost. -/
theorem lost_define (hundefined : b.definition i = none)
    (howned : ∀ j ∈ d.owns, 0 < b.outside j) : (b.define i d).Lost j ↔ b.Lost j := by
  constructor
  · exact fun hj =>
      Backtrack.Lost.mono hj (fun _ => id) fun k l hkl => (owns_define hundefined).mpr (.inl hkl)
  · intro hj
    induction hj with
    | @intro j houtside _ ih =>
      refine .intro houtside fun k hk => ?_
      rcases (owns_define hundefined).mp hk with hk | ⟨-, hj⟩
      · exact ih k hk
      · exact (Nat.ne_of_gt (howned j hj) houtside).elim

theorem of_clones (is : List Nat) (history : List (RuleOp δ)) :
    of (is.map .clone ++ history) =
      { of history with
        outside := fun j => (of history).outside j + is.count j } := by
  induction is with
  | nil => rfl
  | cons i is ih =>
    rw [List.map_cons, List.cons_append, of, ih]
    refine congrArg (RuleBook.mk _ · _) (funext fun j => ?_)
    dsimp only
    by_cases hj : j = i
    · rw [hj, Function.update_self, List.count_cons_self, Nat.add_assoc]
    · rw [Function.update_of_ne hj, List.count_cons_of_ne (Ne.symm hj)]

end RuleBook

/-! ## Possible histories -/

/-- The operation can be done: whoever does it has the owners that it takes. A rule is defined
through an owner, which is not one of those in the definition. -/
def RuleOp.Allowed {δ : Nat → Type u} (b : RuleBook δ) : RuleOp δ → Prop
  | create => True
  | clone i | handle i | drop i => 0 < b.outside i
  | define i d => ∀ j ∈ i :: d.owns, (i :: d.owns).count j ≤ b.outside j
  | run i => i < b.created

instance {δ : Nat → Type u} (b : RuleBook δ) : (op : RuleOp δ) → Decidable (op.Allowed b)
  | .create => .isTrue trivial
  | .clone i | .handle i | .drop i => inferInstanceAs (Decidable (0 < b.outside i))
  | .define i d => inferInstanceAs (Decidable (∀ j ∈ i :: d.owns, (i :: d.owns).count j ≤ _))
  | .run i => inferInstanceAs (Decidable (i < b.created))

/-- Every operation of the history could be done when it was done. -/
def AllowedHistory {δ : Nat → Type u} : List (RuleOp δ) → Prop
  | [] => True
  | op :: history => op.Allowed (.of history) ∧ AllowedHistory history

instance instDecidableAllowedHistory {δ : Nat → Type u} :
    (history : List (RuleOp δ)) → Decidable (AllowedHistory history)
  | [] => .isTrue trivial
  | op :: history =>
    have := instDecidableAllowedHistory history
    inferInstanceAs (Decidable (op.Allowed (.of history) ∧ AllowedHistory history))

namespace RuleStore

variable {δ : Nat → Type u} {store : RuleStore δ} {b : RuleBook δ} {i j k : Nat}
  {d : Definition (δ i)}

/-! ## Changes to a store -/

theorem cell?_update_self {f : Cell (δ i) → Cell (δ i)} :
    (store.update i f).cell? i = (store.cell? i).map f := by
  by_cases hi : i < store.created
  · exact (dif_pos hi).trans (dif_pos rfl)
  · rw [cell?, cell?, dif_neg hi]
    exact dif_neg hi

theorem cell?_update_of_ne {f : Cell (δ i) → Cell (δ i)} (h : j ≠ i) :
    (store.update i f).cell? j = store.cell? j := by
  by_cases hj : j < store.created
  · rw [cell?, cell?, dif_pos hj]
    exact (dif_pos hj).trans (dif_neg h.symm)
  · rw [cell?, cell?, dif_neg hj]
    exact dif_neg hj

/-- A rule that has ceased to exist is not changed. -/
theorem cell?_update_of_none {f : Cell (δ i) → Cell (δ i)} (h : store.cell? j = none) :
    (store.update i f).cell? j = none := by
  by_cases hj : j = i
  · subst hj
    rw [cell?_update_self, h, Option.map_none]
  · rw [cell?_update_of_ne hj, h]

theorem cell?_create_self : store.create.2.cell? store.created = some { owners := 1 } :=
  (dif_pos (Nat.lt_succ_self _)).trans (dif_neg (Nat.lt_irrefl _))

theorem cell?_create_of_ne (h : j ≠ store.created) : store.create.2.cell? j = store.cell? j := by
  by_cases hj : j < store.created
  · rw [cell?, cell?, dif_pos hj]
    exact (dif_pos (Nat.lt_succ_of_lt hj)).trans (dif_pos hj)
  · rw [cell?, cell?, dif_neg hj]
    exact dif_neg fun hle => h (Nat.le_antisymm (Nat.le_of_lt_succ hle) (Nat.le_of_not_lt hj))

/-! ## Following a book -/

/-- The store has the rules that are not lost by the book, as the book has them. The book is about
rules that were created. -/
structure Follows (store : RuleStore δ) (b : RuleBook δ) : Prop where
  created : store.created = b.created
  kept : ∀ i, ¬ b.Lost i → store.cell? i = some ⟨b.definition i, b.outside i⟩
  gone : ∀ i, b.Lost i → store.cell? i = none
  outside_lt : ∀ i, 0 < b.outside i → i < b.created
  definition_lt : ∀ i d, b.definition i = some d → i < b.created
  owns_lt : ∀ j i, b.Owns j i → i < b.created

/-- Nothing holds a rule that was not created. -/
theorem Follows.lost_of_le (h : store.Follows b) (hi : b.created ≤ i) : b.Lost i := by
  refine .intro (Nat.eq_zero_of_not_pos fun hout => ?_) fun j hj => ?_
  · exact Nat.not_lt_of_le hi (h.outside_lt i hout)
  · exact (Nat.not_lt_of_le hi (h.owns_lt j i hj)).elim

theorem follows_empty : (empty : RuleStore δ).Follows {} where
  created := rfl
  kept _ h := (h (.intro rfl fun _ ⟨_, hd, _⟩ => nomatch hd)).elim
  gone _ _ := rfl
  outside_lt _ h := (Nat.lt_irrefl 0 h).elim
  definition_lt _ _ h := nomatch h
  owns_lt _ _ := fun ⟨_, hd, _⟩ => nomatch hd

/-- A rule is added to the store and to the book. -/
theorem Follows.create (h : store.Follows b) : store.create.2.Follows b.create := by
  refine ⟨?_, fun j hj => ?_, fun j hj => ?_, fun j hj => ?_, fun j d hd => ?_, fun j k hk => ?_⟩
  · exact congrArg (· + 1) h.created
  · by_cases hjc : j = b.created
    · subst hjc
      rw [← h.created, cell?_create_self, h.created, RuleBook.outside_create_self]
      have hundefined : b.definition b.created = none := by
        cases hd : b.definition b.created with
        | none => rfl
        | some d => exact (Nat.lt_irrefl _ (h.definition_lt _ d hd)).elim
      exact congrArg (fun x => some (Cell.mk x 1)) hundefined.symm
    · have hlost : ¬ b.Lost j := by
        intro hlost
        exact hj ((RuleBook.lost_create h.definition_lt).mpr ⟨hjc, hlost⟩)
      rw [cell?_create_of_ne (h.created ▸ hjc), h.kept j hlost, RuleBook.outside_create_of_ne hjc]
      rfl
  · obtain ⟨hjc, hlostj⟩ := (RuleBook.lost_create h.definition_lt).mp hj
    rw [cell?_create_of_ne (h.created ▸ hjc), h.gone j hlostj]
  · by_cases hjc : j = b.created
    · rw [hjc]
      exact Nat.lt_succ_self _
    · rw [RuleBook.outside_create_of_ne hjc] at hj
      exact Nat.lt_succ_of_lt (h.outside_lt j hj)
  · exact Nat.lt_succ_of_lt (h.definition_lt j d hd)
  · exact Nat.lt_succ_of_lt (h.owns_lt j k hk)

/-- An owner is added to the store and to the book. -/
theorem Follows.acquire (h : store.Follows b) (hi : 0 < b.outside i) :
    (store.acquire i).Follows (b.gain i) := by
  refine ⟨?_, fun j hj => ?_, fun j hj => ?_, fun j hj => ?_, h.definition_lt, h.owns_lt⟩
  · exact h.created
  · rw [RuleBook.lost_gain hi] at hj
    by_cases hji : j = i
    · subst hji
      rw [RuleStore.acquire, cell?_update_self, h.kept j hj, RuleBook.outside_gain_self]
      rfl
    · rw [RuleStore.acquire, cell?_update_of_ne hji, h.kept j hj, RuleBook.outside_gain_of_ne hji]
      rfl
  · rw [RuleBook.lost_gain hi] at hj
    exact cell?_update_of_none (h.gone j hj)
  · refine h.outside_lt j (Nat.pos_of_ne_zero fun hj' => ?_)
    exact Nat.ne_of_gt hj ((RuleBook.outside_gain_eq_zero hi).mpr hj')

/-- A store that has the rules of a book, lost ones included, has the others after a sweep. -/
theorem sweep_follows {gone : Nat → Prop}
    (hkept : ∀ j, ¬ gone j → store.cell? j = some ⟨b.definition j, b.outside j⟩)
    (hgone : ∀ j, gone j → store.cell? j = none) (hlost : ∀ j, gone j → b.Lost j) :
    (∀ j, ¬ b.Lost j → store.sweep.cell? j = some ⟨b.definition j, b.outside j⟩) ∧
      ∀ j, b.Lost j → store.sweep.cell? j = none := by
  -- The book remembers what the rules that are gone owned, the store does not. They are lost by the
  -- book, so that this makes no difference to what is lost.
  have hbook : ∀ j, store.Lost j → ¬ gone j → b.Lost j := by
    intro j hj
    induction hj with
    | @intro j houtside _ ih =>
      intro hhere
      refine .intro ?_ fun k ⟨d, hd, hk⟩ => ?_
      · rwa [outside_of_cell? (hkept j hhere)] at houtside
      · by_cases hgk : gone k
        · exact hlost k hgk
        · exact ih k ⟨d, (definition?_of_cell? (hkept k hgk)).trans hd, hk⟩ hgk
  have hstore : ∀ j, b.Lost j → ¬ gone j → store.Lost j := by
    intro j hj
    induction hj with
    | @intro j houtside _ ih =>
      intro hhere
      refine .intro ((outside_of_cell? (hkept j hhere)).trans houtside) fun k hk => ?_
      obtain ⟨c, hc⟩ := hk.exists_cell
      have hhere : ¬ gone k := by
        intro hgk
        rw [hgone k hgk] at hc
        cases hc
      obtain ⟨d, hd, hk⟩ := hk
      rw [definition?_of_cell? (hkept k hhere)] at hd
      exact ih k ⟨d, hd, hk⟩ hhere
  constructor
  · intro j hj
    have hhere : ¬ gone j := fun hgj => hj (hlost j hgj)
    rw [cell?_sweep_of_not_lost fun hsj => hj (hbook j hsj hhere), hkept j hhere]
  · intro j hj
    by_cases hgj : gone j
    · exact cell?_sweep_of_none (hgone j hgj)
    · exact cell?_sweep_of_lost (hstore j hj hgj)

/-- Without one of its owners, a rule may be lost, with what it owned. -/
theorem Follows.release (h : store.Follows b) (i : Nat) :
    (store.release i).Follows (b.give [i]) := by
  have houtside : ∀ j, (b.give [i]).outside j = if j = i then b.outside j - 1 else b.outside j := by
    intro j
    show b.outside j - [i].count j = _
    rw [List.count_singleton]
    by_cases hj : j = i
    · simp [hj]
    · simp [hj, Ne.symm hj]
  have hlost : ∀ j, b.Lost j → (b.give [i]).Lost j :=
    fun j hj => Lost.mono hj (fun k hk => Nat.sub_eq_zero_of_le (by omega)) fun _ _ => id
  have hkept : ∀ j, ¬ b.Lost j →
      (store.update i fun c => { c with owners := c.owners - 1 }).cell? j =
        some ⟨(b.give [i]).definition j, (b.give [i]).outside j⟩ := by
    intro j hj
    rw [houtside]
    by_cases hji : j = i
    · subst hji
      rw [cell?_update_self, h.kept j hj, if_pos rfl]
      rfl
    · rw [cell?_update_of_ne hji, h.kept j hj, if_neg hji]
      rfl
  have hsweep := sweep_follows hkept (fun j hj => cell?_update_of_none (h.gone j hj)) hlost
  refine ⟨?_, hsweep.1, hsweep.2, fun j hj => ?_, h.definition_lt, h.owns_lt⟩
  · exact (created_sweep _).trans h.created
  · exact h.outside_lt j (Nat.lt_of_lt_of_le hj (Nat.sub_le _ _))

theorem Follows.releaseAll (h : store.Follows b) (is : List Nat) :
    (store.releaseAll is).Follows (b.give is) := by
  induction is generalizing store b with
  | nil => exact h
  | cons i is ih =>
    have hgive : b.give (i :: is) = (b.give [i]).give is := by
      refine congrArg (RuleBook.mk b.created · b.definition) (funext fun j => ?_)
      show b.outside j - (i :: is).count j = b.outside j - [i].count j - is.count j
      rw [List.count_cons, List.count_singleton, Nat.add_comm, Nat.sub_sub]
    rw [hgive]
    exact ih (h.release i)

/-- A rule that exists and has no definition is defined. What its definition owns is also held from
outside at first. -/
theorem Follows.define (h : store.Follows b) (hi : ¬ b.Lost i)
    (hundefined : b.definition i = none) (howned : ∀ j ∈ d.owns, 0 < b.outside j) :
    ∃ defined, store.define i d = .ok defined ∧ defined.Follows (b.define i d) := by
  have hcell := h.kept i hi
  have hdefine : store.define i d =
      .ok (store.update i fun c => { c with definition := some d }) := by
    rw [RuleStore.define, isDefined, definition?_of_cell? hcell, hundefined]
    rfl
  refine ⟨_, hdefine, ?_, fun j hj => ?_, fun j hj => ?_, h.outside_lt, fun j e he => ?_, ?_⟩
  · exact h.created
  · rw [RuleBook.lost_define hundefined howned] at hj
    by_cases hji : j = i
    · subst hji
      rw [cell?_update_self, hcell, RuleBook.definition_define_self, hundefined, Option.none_or]
      rfl
    · rw [cell?_update_of_ne hji, h.kept j hj, RuleBook.definition_define_of_ne hji]
      rfl
  · rw [RuleBook.lost_define hundefined howned] at hj
    exact cell?_update_of_none (h.gone j hj)
  · by_cases hji : j = i
    · rw [hji]
      by_contra hle
      exact hi (h.lost_of_le (Nat.le_of_not_lt hle))
    · rw [RuleBook.definition_define_of_ne hji] at he
      exact h.definition_lt j e he
  · intro j k hjk
    rcases (RuleBook.owns_define hundefined).mp hjk with hjk | ⟨-, hk⟩
    · exact h.owns_lt j k hjk
    · exact h.outside_lt k (howned k hk)

/-- A rule that exists and has a definition keeps it. -/
theorem Follows.define_again (h : store.Follows b) {first d : Definition (δ i)} (hi : ¬ b.Lost i)
    (hdefined : b.definition i = some first) :
    store.define i d = .error .alreadyDefined ∧ b.define i d = b := by
  constructor
  · rw [RuleStore.define, isDefined, definition?_of_cell? (h.kept i hi), hdefined]
    rfl
  · have hsame : Function.update b.definition i ((b.definition i).or (some d)) = b.definition := by
      rw [hdefined, Option.some_or, ← hdefined, Function.update_eq_self]
    rw [RuleBook.define, hsame]

/-- Who defines a rule has an owner of it, and of every rule that goes into the definition. -/
theorem outside_of_allowed (h : (RuleOp.define i d).Allowed b)
    (hj : j ∈ i :: d.owns) : 0 < b.outside j :=
  Nat.lt_of_lt_of_le (List.count_pos_iff.mpr hj) (h j hj)

/-- Every operation that can be done keeps the store in line with the book. -/
theorem Follows.perform {op : RuleOp δ} {history : List (RuleOp δ)}
    (h : store.Follows (.of history)) (hop : op.Allowed (.of history)) :
    (store.perform op).Follows (.of (op :: history)) := by
  cases op with
  | create => exact h.create
  | clone i => exact h.acquire hop
  | handle i => exact h
  | run i => exact h
  | drop i => exact h.release i
  | define i d =>
    have hi := RuleBook.not_lost_of_outside (outside_of_allowed hop List.mem_cons_self)
    show (match store.define i d with
      | .ok defined => defined.releaseAll d.owns
      | .error _ => store.releaseAll d.owns).Follows
        (((RuleBook.of history).define i d).give d.owns)
    cases hdefined : (RuleBook.of history).definition i with
    | none =>
      obtain ⟨defined, hdefine, hfollows⟩ :=
        h.define hi hdefined fun j hj => outside_of_allowed hop (List.mem_cons_of_mem i hj)
      rw [hdefine]
      exact hfollows.releaseAll d.owns
    | some first =>
      obtain ⟨hdefine, hbook⟩ := h.define_again (d := d) hi hdefined
      rw [hdefine, hbook]
      exact h.releaseAll d.owns

/-- The store after a history follows the book of the history. -/
theorem follows_after {history : List (RuleOp δ)} (h : AllowedHistory history) :
    (after history).Follows (.of history) := by
  induction history with
  | nil => exact follows_empty
  | cons op history ih => exact (ih h.2).perform h.1

/-! ## Owners that are cloned for a definition -/

/-- A book determines what store follows it. -/
theorem Follows.unique {store' : RuleStore δ} (h : store.Follows b) (h' : store'.Follows b) :
    store = store' := by
  refine ext_cell? (h.created.trans h'.created.symm) fun i => ?_
  by_cases hi : b.Lost i
  · rw [h.gone i hi, h'.gone i hi]
  · rw [h.kept i hi, h'.kept i hi]

theorem allowedHistory_clones {history : List (RuleOp δ)} (h : AllowedHistory history)
    {is : List Nat} (his : ∀ j ∈ is, 0 < (RuleBook.of history).outside j) :
    AllowedHistory (is.map .clone ++ history) := by
  induction is with
  | nil => exact h
  | cons i is ih =>
    rw [List.forall_mem_cons] at his
    refine ⟨?_, ih his.2⟩
    show 0 < (RuleBook.of (is.map .clone ++ history)).outside i
    rw [RuleBook.of_clones]
    exact Nat.add_pos_left his.1 _

/-- To define a rule with clones that are made for it is what `RuleStore.define` does at once, or
nothing at all if the rule has a definition. -/
theorem after_define_clones {history : List (RuleOp δ)} (h : AllowedHistory history)
    (hi : 0 < (RuleBook.of history).outside i)
    (howned : ∀ j ∈ d.owns, 0 < (RuleBook.of history).outside j) :
    AllowedHistory (.define i d :: (d.owns.map .clone ++ history)) ∧
      after (.define i d :: (d.owns.map .clone ++ history)) =
        match (after history).define i d with
        | .ok defined => defined
        | .error _ => after history := by
  have hclones := RuleBook.of_clones d.owns history
  have hallowed : AllowedHistory (.define i d :: (d.owns.map .clone ++ history)) := by
    refine ⟨fun j hj => ?_, allowedHistory_clones h howned⟩
    rw [hclones]
    dsimp only
    by_cases hji : j = i
    · rw [hji, List.count_cons_self]
      omega
    · rw [List.count_cons_of_ne (Ne.symm hji)]
      omega
  refine ⟨hallowed, (follows_after hallowed).unique ?_⟩
  have hbook : RuleBook.of (.define i d :: (d.owns.map .clone ++ history)) =
      (RuleBook.of history).define i d := by
    rw [RuleBook.of, hclones]
    refine congrArg (RuleBook.mk _ · _) (funext fun j => ?_)
    exact Nat.add_sub_cancel _ _
  rw [hbook]
  have hlost := RuleBook.not_lost_of_outside hi
  cases hdefined : (RuleBook.of history).definition i with
  | none =>
    obtain ⟨defined, hdefine, hfollows⟩ := (follows_after h).define hlost hdefined howned
    rwa [hdefine]
  | some first =>
    obtain ⟨hdefine, hsame⟩ := (follows_after h).define_again (d := d) hlost hdefined
    rw [hdefine, hsame]
    exact follows_after h

/-! ## What holds a rule -/

/-- Which rules of the store exist by the book, and how they are defined. -/
structure LivesBy (store : RuleStore δ) (b : RuleBook δ) : Prop where
  /-- A rule exists if an owner outside leads to it, over definitions, or rules in a circle do. -/
  held : ∀ i, store.isAlive i = true ↔
    ∃ j, ReflTransGen b.Owns j i ∧ (0 < b.outside j ∨ TransGen b.Owns j j)
  /-- A rule that exists has an owner, outside or in the definition of a rule that exists. -/
  owned : ∀ i, store.isAlive i = true ↔
    0 < b.outside i ∨ ∃ j, store.isAlive j = true ∧ b.Owns j i
  /-- A rule that exists has its first definition. -/
  defined : ∀ i, store.definition? i = if store.isAlive i then b.definition i else none

theorem Follows.isAlive_iff (h : store.Follows b) : store.isAlive i = true ↔ ¬ b.Lost i := by
  rw [isAlive]
  by_cases hi : b.Lost i
  · simp [hi, h.gone i hi]
  · simp [hi, h.kept i hi]

theorem Follows.livesBy (h : store.Follows b) : store.LivesBy b where
  held i := by
    refine h.isAlive_iff.trans (not_lost_iff (n := b.created) fun j k hjk => ?_)
    obtain ⟨d, hd, -⟩ := hjk
    exact h.definition_lt j d hd
  owned i := by
    simp only [h.isAlive_iff]
    constructor
    · intro hi
      by_contra hno
      refine hi (.intro (Nat.eq_zero_of_not_pos fun hout => hno (.inl hout)) fun j hj => ?_)
      by_contra hlost
      exact hno (.inr ⟨j, hlost, hj⟩)
    · rintro (hout | ⟨j, hj, howns⟩) hi
      · exact RuleBook.not_lost_of_outside hout hi
      · exact hj ((lost_iff.mp hi).2 j howns)
  defined i := by
    by_cases hi : b.Lost i
    · have hdead : ¬ store.isAlive i = true := fun halive => h.isAlive_iff.mp halive hi
      rw [if_neg hdead, definition?_of_none (h.gone i hi)]
    · rw [if_pos (h.isAlive_iff.mpr hi), definition?_of_cell? (h.kept i hi)]

/-- The owner through which a rule is defined stays outside, so the rule exists. Its definition is
the first one that it was given. -/
theorem definition?_after_define {history : List (RuleOp δ)} (h : AllowedHistory history)
    (hd : (RuleOp.define i d).Allowed (.of history)) :
    (after (.define i d :: history)).definition? i =
      ((RuleBook.of history).definition i).or (some d) := by
  have hallowed : AllowedHistory (.define i d :: history) := ⟨hd, h⟩
  have hfollows := follows_after hallowed
  have houtside : 0 < (RuleBook.of (.define i d :: history)).outside i := by
    have hcount := hd i List.mem_cons_self
    rw [List.count_cons_self] at hcount
    show 0 < (RuleBook.of history).outside i - d.owns.count i
    omega
  have halive := hfollows.isAlive_iff.mpr (RuleBook.not_lost_of_outside houtside)
  rw [hfollows.livesBy.defined i, if_pos halive]
  exact Function.update_self i _ _

/-- The first definition of a rule is accepted. -/
theorem answer_define {history : List (RuleOp δ)} (h : AllowedHistory history)
    (hd : (RuleOp.define i d).Allowed (.of history))
    (hundefined : (RuleBook.of history).definition i = none) :
    (after history).answer (.define i d) = .ok () := by
  have hi := RuleBook.not_lost_of_outside (outside_of_allowed hd List.mem_cons_self)
  obtain ⟨defined, hdefine, -⟩ := (follows_after h).define hi hundefined fun j hj =>
    outside_of_allowed hd (List.mem_cons_of_mem i hj)
  rw [answer, hdefine]
  rfl

/-- Another one is refused, which costs the owners in it. -/
theorem refuse_define {history : List (RuleOp δ)} (h : AllowedHistory history)
    {first d : Definition (δ i)} (hd : (RuleOp.define i d).Allowed (.of history))
    (hfirst : (RuleBook.of history).definition i = some first) :
    (after history).answer (.define i d) = .error .alreadyDefined ∧
      (RuleBook.of (.define i d :: history)).definition = (RuleBook.of history).definition ∧
      after (.define i d :: history) = (after history).releaseAll d.owns := by
  have hi := RuleBook.not_lost_of_outside (outside_of_allowed hd List.mem_cons_self)
  obtain ⟨hdefine, hbook⟩ := (follows_after h).define_again (d := d) hi hfirst
  refine ⟨?_, ?_, ?_⟩
  · rw [answer, hdefine]
    rfl
  · show ((RuleBook.of history).define i d).definition = _
    rw [hbook]
  · rw [after, RuleStore.perform, hdefine]

/-- The last owner of a rule holds what nothing else leads to. -/
theorem isAlive_after_drop {history : List (RuleOp δ)} (h : AllowedHistory history) {k : Nat}
    (hlast : (RuleBook.of history).outside i = 1)
    (hcircle : ¬ TransGen (RuleBook.of history).Owns i i)
    (honly : ∀ j, ReflTransGen (RuleBook.of history).Owns j k →
      0 < (RuleBook.of history).outside j ∨ TransGen (RuleBook.of history).Owns j j → j = i) :
    (after (.drop i :: history)).isAlive k = false := by
  have hallowed : AllowedHistory (.drop i :: history) := by
    refine ⟨?_, h⟩
    show 0 < (RuleBook.of history).outside i
    omega
  refine Bool.of_not_eq_true fun halive => ?_
  -- What leads to the rule now led to it before, so it is the rule of the owner that is given up.
  obtain ⟨j, hpath, hheld⟩ := ((follows_after hallowed).livesBy.held k).mp halive
  have houtside : (RuleBook.of (.drop i :: history)).outside j =
      (RuleBook.of history).outside j - [i].count j := rfl
  rw [houtside] at hheld
  obtain rfl := honly j hpath (hheld.imp_left fun hout => by omega)
  rcases hheld with hout | hout
  · rw [hlast, List.count_singleton_self] at hout
    exact Nat.lt_irrefl 0 hout
  · exact hcircle hout

section Runs

variable {σ : Type} {τ : Nat → Type} [BEq σ] [Describe σ]

/-- What runs a rule of the store runs its first definition, if the rule exists and has one. -/
theorem LivesBy.comesTo_rule {store : RuleStore fun i => Parser σ τ (τ i)}
    {b : RuleBook fun i => Parser σ τ (τ i)} {env : Env σ τ} {pos : Nat} {s t : State}
    {r : Outcome (τ i)} (h : store.LivesBy b) (hrules : env.rules = store.body?) :
    (Parser.rule i).ComesTo env pos s r t ↔
      (∃ d, store.isAlive i = true ∧ b.definition i = some d ∧ d.body.ComesTo env pos s r t) ∨
      ((store.isAlive i = false ∨ b.definition i = none) ∧
        r = .fail pos ∧ t = s.reported (.unknown pos)) := by
  have hbody : env.rules i = (store.definition? i).map (·.body) := congrFun hrules i
  rw [h.defined i] at hbody
  rw [Parser.comesTo_rule, hbody]
  cases halive : store.isAlive i with
  | false => simp
  | true => cases hd : b.definition i <;> simp

/-- Rules are defined once, and live as long as they have an owner, after every history. Every rule
has a type of values of its own.

- The store has the rules that the book says are owned, with their first definitions.
- The first definition of a rule is accepted. Another one is refused, and all that happens is that
  the owners in it cease to exist.
- A run through an owner or a handle does what the first definition does, if the rule exists and is
  defined. Otherwise it makes one report and fails.
- With its last owner outside ceases to exist a rule that does not own itself over definitions, and
  whatever nothing else holds. -/
theorem rules_live_while_owned {history : List (RuleOp fun i => Parser σ τ (τ i))}
    (h : AllowedHistory history) :
    (after history).LivesBy (.of history) ∧
    (∀ i d, (RuleOp.define i d).Allowed (.of history) →
      ((RuleBook.of history).definition i = none →
        (after history).answer (.define i d) = .ok () ∧
        (after (.define i d :: history)).definition? i = some d) ∧
      ∀ first, (RuleBook.of history).definition i = some first →
        (after history).answer (.define i d) = .error .alreadyDefined ∧
        (after (.define i d :: history)).definition? i = some first ∧
        (RuleBook.of (.define i d :: history)).definition = (RuleBook.of history).definition ∧
        after (.define i d :: history) = (after history).releaseAll d.owns) ∧
    (∀ (env : Env σ τ), env.rules = (after history).body? → ∀ i pos s r t,
      (Parser.rule i).ComesTo env pos s r t ↔
        (∃ d, (after history).isAlive i = true ∧ (RuleBook.of history).definition i = some d ∧
          d.body.ComesTo env pos s r t) ∨
        (((after history).isAlive i = false ∨ (RuleBook.of history).definition i = none) ∧
          r = .fail pos ∧ t = s.reported (.unknown pos))) ∧
    ∀ i k, (RuleBook.of history).outside i = 1 → ¬ TransGen (RuleBook.of history).Owns i i →
      (∀ j, ReflTransGen (RuleBook.of history).Owns j k →
        0 < (RuleBook.of history).outside j ∨ TransGen (RuleBook.of history).Owns j j → j = i) →
      (after (.drop i :: history)).isAlive k = false := by
  have hlives := (follows_after h).livesBy
  refine ⟨hlives, fun i d hd => ⟨fun hundefined => ?_, fun first hfirst => ?_⟩,
    fun env hrules i pos s r t => hlives.comesTo_rule hrules,
    fun i k hlast hcircle honly => isAlive_after_drop h hlast hcircle honly⟩
  · refine ⟨answer_define h hd hundefined, ?_⟩
    rw [definition?_after_define h hd, hundefined, Option.none_or]
  · obtain ⟨hanswer, hbook, hstore⟩ := refuse_define h hd hfirst
    refine ⟨hanswer, ?_, hbook, hstore⟩
    rw [definition?_after_define h hd, hfirst, Option.some_or]

/-- The rule 1 owns the rule 0, and the rule 2 itself. Without owners outside, only the last one
exists. -/
theorem rules_live_while_owned_circle :
    let τ : Nat → Type := fun | 0 => Char | 1 => Nat | _ => Unit
    let before : List (RuleOp fun i => Parser Char τ (τ i)) := [
      .drop 2, .drop 0, .define 1 ⟨.pure (0 : Nat), []⟩, .define 2 ⟨.rule 2, [2]⟩,
      .define 1 ⟨((Parser.el 'a').andThen (.rule 0)).map Char.toNat, [0]⟩,
      .define 0 ⟨.el 'b', []⟩, .clone 2, .clone 0, .create, .create, .create]
    let history := .drop 1 :: before
    let env (history : List (RuleOp fun i => Parser Char τ (τ i))) : Env Char τ :=
      { source := .text ['a', 'b'], rules := (after history).body? }
    (AllowedHistory before ∧ AllowedHistory history) ∧
      (Parser.rule 1).ComesTo (env before) 0 {} (.ok 2 (98 : Nat)) {} ∧
      (Parser.rule 0).ComesTo (env history) 1 {} (.fail 1)
        { sink := .reached 1 [.unknown 1], entries := [⟨1, some (.unknown 1)⟩] } ∧
      (after history).isAlive 2 = true := by
  intro τ before history env
  have hbefore : AllowedHistory before := by decide
  have hafter : AllowedHistory history := by decide
  have henv : ∀ history, (env history).rules = (after history).body? := by
    intro history
    with_reducible rfl
  obtain ⟨-, -, hrunBefore, -⟩ := rules_live_while_owned hbefore
  obtain ⟨hlives, -, hrunAfter, -⟩ := rules_live_while_owned hafter
  have hzero : (Parser.rule 0).ComesTo (env before) 1 {} (.ok 2 'b') {} := by
    refine (hrunBefore _ (henv before) 0 1 {} _ _).mpr (.inl ⟨⟨.el 'b', []⟩, ?_, rfl, ?_⟩)
    · decide +kernel
    · exact .of_run (n := 1) rfl
  refine ⟨⟨hbefore, hafter⟩, ?_, ?_, ?_⟩
  · refine (hrunBefore _ (henv before) 1 0 {} _ _).mpr (.inl ⟨_, ?_, rfl, ?_⟩)
    · decide +kernel
    · refine Parser.comesTo_map.mpr ⟨.ok 2 'b', ?_, rfl⟩
      exact Parser.comesTo_andMap.mpr (.inl ⟨1, 'a', {}, _, .of_run (n := 1) rfl, hzero, rfl⟩)
  · refine (hrunAfter _ (henv history) 0 1 {} _ _).mpr (.inr ⟨.inl ?_, rfl, rfl⟩)
    decide +kernel
  · exact (hlives.held 2).mpr ⟨2, .refl, .inr (.single ⟨_, rfl, List.mem_singleton_self 2⟩)⟩

end Runs

end RuleStore

end Backtrack
