import Backtrack.Proofs.LibraryBuilt
import Backtrack.Proofs.Monotone
import Backtrack.Proofs.Sink.Width

/-!
# What the sink remembers

Failures are registered through the parse context, by one of four calls (`Registration`). The sink
is updated call by call, but what it holds can be read off the sequence of all calls: it has come as
far as the farthest of them, and its records are those that were reported there, in order
(`Sink.farthest_ofCalls`, `Sink.records_ofCalls`).

Whatever a parser is, it does nothing else to the sink (`Parser.exists_calls`). So the calls of a
failed parse, those of abandoned alternatives included, say what the parse reports
(`Parser.sink_remembers`).

Code that is given a context can also put a fresh one in its place, keep the other and bring it back
later (`Handling`). The context that a parse ends with was a fresh one at some time, and a sequence
of calls was made on it since, so its sink remembers those (`Contexts.sinks_eq`).
-/

namespace Backtrack

variable {σ ι : Type} {τ : ι → Type} {α : Type}

/-- A call by which a failure is registered with the parse context. -/
inductive Registration where
  /-- A failure, without saying what was expected. -/
  | addError (index : Nat)
  /-- A failure at the position of a record. -/
  | report (e : Expectation)
  /-- A mismatch with no further explanation. -/
  | unknown (index : Nat)
  /-- A certain symbol or pattern was expected. -/
  | expected (index : Nat) (value : String)
  deriving DecidableEq, Repr

namespace Registration

/-- The position of the failure. -/
def index : Registration → Nat
  | addError i => i
  | report e => e.index
  | unknown i => i
  | expected i _ => i

/-- The record that is reported. -/
def record? : Registration → Option Expectation
  | addError _ => none
  | report e => some e
  | unknown i => some (.unknown i)
  | expected i value => some (.expected i value)

/-- What the call does to the sink. -/
def apply (s : Sink) : Registration → Sink
  | addError i => s.add i none
  | report e => s.report e
  | unknown i => s.report (.unknown i)
  | expected i value => s.report (.expected i value)

/-- The entry that the call leaves in the history of the sink. -/
def entry (c : Registration) : Entry := ⟨c.index, c.record?⟩

/-- A call that leaves a given entry. -/
def ofEntry : Entry → Registration
  | ⟨i, none⟩ => addError i
  | ⟨_, some e⟩ => report e

theorem apply_eq (s : Sink) (c : Registration) : apply s c = s.add c.index c.record? := by
  cases c <;> rfl

theorem index_of_record {c : Registration} {e : Expectation} (h : c.record? = some e) :
    e.index = c.index := by
  cases c with
  | addError i => cases h
  | report e' => exact Option.some.inj h ▸ rfl
  | unknown i => exact Option.some.inj h ▸ rfl
  | expected i value => exact Option.some.inj h ▸ rfl

end Registration

/-! ## The sink of a sequence of calls -/

namespace Sink

/-- The sink of a fresh context after a sequence of calls. -/
def ofCalls (cs : List Registration) : Sink := cs.foldl Registration.apply empty

/-- The sink of a fresh context after one call. -/
def ofCall (c : Registration) : Sink := reached c.index c.record?.toList

/-- Calls do to a sink what they do to an empty one, merged with it. -/
theorem foldl_apply (s : Sink) (cs : List Registration) :
    cs.foldl Registration.apply s = s.merge (mergeAll (cs.map ofCall)) := by
  induction cs generalizing s with
  | nil => exact (merge_empty s).symm
  | cons c cs ih =>
    rw [List.foldl_cons, ih, Registration.apply_eq, add_eq_merge, merge_assoc, List.map_cons,
      mergeAll_cons]
    rfl

theorem joins_ofCalls (cs : List Registration) : Joins (cs.map ofCall) (ofCalls cs) := by
  rw [ofCalls, foldl_apply, empty_merge]
  exact joins_mergeAll _

theorem farthest_ofCalls (cs : List Registration) :
    (ofCalls cs).farthest = (cs.map Registration.index).max? := by
  rw [(joins_ofCalls cs).farthest]
  induction cs with
  | nil => rfl
  | cons c cs ih =>
    rw [List.map_cons, List.map_cons, List.foldr_cons, ih, List.map_cons, List.max?_cons]
    cases (cs.map Registration.index).max? <;> rfl

theorem records_ofCalls (cs : List Registration) :
    (ofCalls cs).records = (cs.filterMap Registration.record?).filter fun e =>
      (ofCalls cs).farthest = some e.index := by
  rw [(joins_ofCalls cs).records]
  generalize (ofCalls cs).farthest = f
  induction cs with
  | nil => rfl
  | cons c cs ih =>
    have hc : (ofCall c).farthest = some c.index := rfl
    rw [List.map_cons, List.filter_cons, hc]
    cases hrecord : c.record? with
    | none =>
      have hnone : (ofCall c).records = [] := by rw [ofCall, hrecord]; rfl
      rw [List.filterMap_cons_none hrecord]
      split
      · rw [List.flatMap_cons, hnone, ih]
        rfl
      · exact ih
    | some e =>
      have hsome : (ofCall c).records = [e] := by rw [ofCall, hrecord]; rfl
      rw [List.filterMap_cons_some hrecord, List.filter_cons, Registration.index_of_record hrecord]
      by_cases hf : some c.index = f
      · rw [if_pos (decide_eq_true hf), if_pos (decide_eq_true hf.symm), List.flatMap_cons,
          hsome, ih]
        rfl
      · rw [if_neg (by simpa using hf),
          if_neg (by simpa using Ne.symm hf), ih]

theorem mem_records_ofCalls {cs : List Registration} {e : Expectation} :
    e ∈ (ofCalls cs).records ↔
      (∃ c ∈ cs, c.record? = some e) ∧ (ofCalls cs).farthest = some e.index := by
  rw [records_ofCalls, List.mem_filter, List.mem_filterMap, decide_eq_true_iff]

/-- There are no records if none was reported by a farthest call. Where nothing was registered, any
position stands for the farthest. -/
theorem records_ofCalls_eq_nil (cs : List Registration) (q : Nat) :
    (ofCalls cs).records = [] ↔
      ∀ c ∈ cs, c.index = (ofCalls cs).farthest.getD q → c.record? = none := by
  constructor
  · intro hnil c hc hindex
    cases hrecord : c.record? with
    | none => rfl
    | some e =>
      have hfarthest : (ofCalls cs).farthest = some e.index := by
        cases hf : (ofCalls cs).farthest with
        | none =>
          rw [farthest_ofCalls, List.max?_eq_none_iff, List.map_eq_nil_iff] at hf
          exact absurd (hf ▸ hc) List.not_mem_nil
        | some f => rw [Registration.index_of_record hrecord, hindex, hf, Option.getD_some]
      have hmem := mem_records_ofCalls.mpr ⟨⟨c, hc, hrecord⟩, hfarthest⟩
      exact absurd (hnil ▸ hmem) List.not_mem_nil
  · intro hbare
    refine List.eq_nil_iff_forall_not_mem.mpr fun e he => ?_
    obtain ⟨⟨c, hc, hrecord⟩, hfarthest⟩ := mem_records_ofCalls.mp he
    have hindex : c.index = (ofCalls cs).farthest.getD q := by
      rw [hfarthest, Option.getD_some, Registration.index_of_record hrecord]
    rw [hbare c hc hindex] at hrecord
    cases hrecord

/-- Nothing is kept from before a failure that is farther than all others. -/
theorem ofCalls_addError {cs : List Registration} {i : Nat} (h : ∀ c ∈ cs, c.index < i) :
    ofCalls (cs ++ [.addError i]) = reached i [] := by
  rw [ofCalls, List.foldl_append]
  change (ofCalls cs).add i none = _
  cases hs : ofCalls cs with
  | empty => rfl
  | reached f rs =>
    have hf : (cs.map Registration.index).max? = some f := by rw [← farthest_ofCalls, hs]; rfl
    obtain ⟨c, hc, rfl⟩ := List.mem_map.mp (List.max?_mem hf)
    exact if_pos (h c hc)

end Sink

/-! ## Contexts in one another's place -/

/-- What code can do with a context that it is given. -/
inductive Handling where
  /-- Registers a failure with the context in place. -/
  | call (c : Registration)
  /-- Puts a fresh context in place, and keeps the one that was there. -/
  | renew
  /-- Puts one of the contexts that were kept in place, and keeps the one that was there. -/
  | swap (k : Nat)
  deriving DecidableEq, Repr

/-- The context in place, and those that were kept, with a value for each of them. -/
structure Contexts (α : Type) where
  inPlace : α
  kept : List α := []

namespace Contexts

variable {α β : Type} {fresh : α} {call : α → Registration → α}

/-- Handles the contexts, where a fresh context has the given value, and a call changes the value as
given. -/
def handle (fresh : α) (call : α → Registration → α) (held : Contexts α) : Handling → Contexts α
  | .call c => { held with inPlace := call held.inPlace c }
  | .renew => ⟨fresh, held.inPlace :: held.kept⟩
  | .swap k =>
    match held.kept[k]? with
    | some a => ⟨a, held.kept.set k held.inPlace⟩
    | none => held

/-- Handles a fresh context. -/
def handleAll (fresh : α) (call : α → Registration → α) (hs : List Handling) : Contexts α :=
  hs.foldl (handle fresh call) ⟨fresh, []⟩

/-- The sinks of the contexts. -/
def sinks (hs : List Handling) : Contexts Sink := handleAll .empty Registration.apply hs

/-- The calls that were made on each of the contexts since it was fresh. -/
def calls (hs : List Handling) : Contexts (List Registration) :=
  handleAll [] (fun cs c => cs ++ [c]) hs

/-- Changes the values. -/
def map (f : α → β) (held : Contexts α) : Contexts β := ⟨f held.inPlace, held.kept.map f⟩

/-- A value that follows the calls on a context follows the context, wherever it is put. -/
theorem map_handle {f : α → β} {call' : β → Registration → β}
    (hcall : ∀ a c, f (call a c) = call' (f a) c) (held : Contexts α) (h : Handling) :
    (handle fresh call held h).map f = handle (f fresh) call' (held.map f) h := by
  cases h with
  | call c => exact congrArg (Contexts.mk · _) (hcall held.inPlace c)
  | renew => rfl
  | swap k =>
    simp only [handle, map, List.getElem?_map]
    cases held.kept[k]? with
    | none => rfl
    | some a => exact congrArg (Contexts.mk (f a)) List.map_set

/-- Every context that is held has the sink of the calls that were made on it. -/
theorem sinks_eq (hs : List Handling) : sinks hs = (calls hs).map .ofCalls := by
  have hcall (cs : List Registration) (c : Registration) :
      Sink.ofCalls (cs ++ [c]) = Registration.apply (.ofCalls cs) c := by
    rw [Sink.ofCalls, List.foldl_append]
    rfl
  have hstep (held : Contexts (List Registration)) :
      hs.foldl (handle .empty Registration.apply) (held.map .ofCalls) =
        (hs.foldl (handle [] fun cs c => cs ++ [c]) held).map .ofCalls := by
    induction hs generalizing held with
    | nil => rfl
    | cons h hs ih =>
      rw [List.foldl_cons, List.foldl_cons, ← ih, map_handle hcall]
      rfl
  exact hstep ⟨[], []⟩

end Contexts

/-! ## What is reported -/

/-- What a failed parse reports at index `i`, read off the calls on the context that it ends with:
some of the records of the calls at that index in their order, the last of them for certain, and so
nothing only if no record was reported there. -/
structure Registration.Reported (cs : List Registration) (i : Nat) (es : List Expectation) :
    Prop where
  index_eq : ∀ e ∈ es, e.index = i
  sublist : es.Sublist (Sink.ofCalls cs).records
  getLast? : es.getLast? = (Sink.ofCalls cs).records.getLast?
  nil_iff : es = [] ↔ ∀ c ∈ cs, c.index = i → c.record? = none

/-- The report of a failure, which stands at the farthest of the calls. -/
theorem Registration.reported_finish (cs : List Registration) (q : Nat) :
    Reported cs ((Sink.ofCalls cs).farthest.getD q) (Sink.ofCalls cs).finish where
  index_eq e he := by
    obtain ⟨-, hfarthest⟩ := Sink.mem_records_ofCalls.mp ((Sink.finish_sublist _).subset he)
    rw [hfarthest, Option.getD_some]
  sublist := Sink.finish_sublist _
  getLast? := Sink.getLast?_finish _
  nil_iff := by
    have hnil : (Sink.ofCalls cs).finish = [] ↔ (Sink.ofCalls cs).records = [] := by
      rw [← List.getLast?_eq_none_iff, Sink.getLast?_finish, List.getLast?_eq_none_iff]
    rw [hnil]
    exact Sink.records_ofCalls_eq_nil cs q

/-! ## The calls of a run -/

/-- The sink is that of the history, in which every record is for its own place. -/
def State.Recorded (s : State) : Prop :=
  s.sink = .ofEntries s.entries ∧ ∀ e ∈ s.entries, ∀ x, e.record = some x → x.index = e.index

theorem State.stable_recorded : State.Stable State.Recorded where
  register i r inPlace s hs := by
    refine ⟨?_, fun e he => ?_⟩
    · dsimp only
      rw [hs.1]
      rfl
    · rcases List.mem_cons.mp he with rfl | he
      · exact inPlace
      · exact hs.2 e he
  build _ _ hs := hs

/-- A history in place is that of calls. -/
theorem Registration.exists_calls {es : List Entry}
    (h : ∀ e ∈ es, ∀ x, e.record = some x → x.index = e.index) :
    ∃ cs : List Registration, es.reverse = cs.map entry ∧ Sink.ofEntries es = .ofCalls cs := by
  induction es with
  | nil => exact ⟨[], rfl, rfl⟩
  | cons e es ih =>
    rw [List.forall_mem_cons] at h
    obtain ⟨cs, hcs, hsink⟩ := ih h.2
    have he : (ofEntry e).entry = e := by
      obtain ⟨i, r⟩ := e
      cases r with
      | none => rfl
      | some x => exact congrArg (Entry.mk · (some x)) (h.1 x rfl)
    refine ⟨cs ++ [ofEntry e], ?_, ?_⟩
    · rw [List.reverse_cons, hcs, List.map_append, List.map_singleton, he]
    · have hstep : Sink.ofCalls (cs ++ [ofEntry e]) = apply (.ofCalls cs) (ofEntry e) := by
        rw [Sink.ofCalls, List.foldl_append]
        rfl
      have hindex : (ofEntry e).index = e.index := congrArg Entry.index he
      have hrecord : (ofEntry e).record? = e.record := congrArg Entry.record he
      rw [hstep, apply_eq, hindex, hrecord, ← hsink]
      rfl

section

variable [BEq σ] [Describe σ] {env : Env σ τ} {p : Parser σ τ α}

/-- All that a run does to a fresh sink is a sequence of calls. -/
theorem Parser.exists_calls {n pos : Nat} {built : List Nat} {r : Outcome α} {t : State}
    (hrun : p.run env n pos { built := built } = some (r, t)) :
    ∃ cs : List Registration, t.entries.reverse = cs.map (·.entry) ∧ t.sink = .ofCalls cs := by
  have hfresh : State.Recorded { built := built } := ⟨rfl, nofun⟩
  obtain ⟨hsink, hentries⟩ := run_keeps State.stable_recorded hrun hfresh
  rw [hsink]
  exact Registration.exists_calls hentries

end

end Backtrack
