import Backtrack.Proofs.Boundary
import Backtrack.Proofs.Relocation

/-!
# A text and the list of its characters

A text is read by byte offset and a list by index. Apart from that, a parser that does not look at
positions and uses nothing peculiar to texts cannot tell a text from the list of its characters. Its
run on the text is its run on the list, with every index replaced by the offset of that character
(`Parser.run_text_items`).
-/

namespace Backtrack

variable {ι : Type} {τ : ι → Type} {α : Type}

/-- Where the character with an index starts in a text: the number of bytes before it. Indices
beyond the end are one byte apart. -/
def byteOffset (cs : List Char) (i : Nat) : Nat :=
  extent Char.utf8Size (cs.take i) + (i - cs.length)

@[simp] theorem byteOffset_zero (cs : List Char) : byteOffset cs 0 = 0 := by simp [byteOffset]

@[simp] theorem byteOffset_nil (i : Nat) : byteOffset [] i = i := by simp [byteOffset]

@[simp] theorem byteOffset_cons_succ (c : Char) (cs : List Char) (i : Nat) :
    byteOffset (c :: cs) (i + 1) = c.utf8Size + byteOffset cs i := by
  simp [byteOffset, Nat.add_assoc]

theorem byteOffset_append (front back : List Char) (i : Nat) :
    byteOffset (front ++ back) (front.length + i) =
      extent Char.utf8Size front + byteOffset back i := by
  induction front with
  | nil => simp
  | cons c front ih =>
    rw [List.length_cons, Nat.add_right_comm, List.cons_append, byteOffset_cons_succ, ih,
      extent_cons, Nat.add_assoc]

theorem strictMono_byteOffset (cs : List Char) : StrictMono (byteOffset cs) := by
  refine strictMono_nat_of_lt_succ fun i => ?_
  induction cs generalizing i with
  | nil => simp
  | cons c cs ih =>
    cases i with
    | zero =>
      have := c.utf8Size_pos
      simp only [byteOffset_zero, byteOffset_cons_succ]
      omega
    | succ i =>
      have := ih i
      simp only [byteOffset_cons_succ]
      omega

theorem byteOffset_length (cs : List Char) : byteOffset cs cs.length = (Source.text cs).len := by
  simp [byteOffset, Source.len, Source.symbols, Source.width]

theorem Source.len_items {σ : Type} (xs : List σ) : (items xs).len = xs.length :=
  extent_items xs xs

/-- The same characters are left at an index of the list and at its offset in the text. -/
theorem Source.rest?_byteOffset (cs : List Char) (i : Nat) :
    (text cs).rest? (byteOffset cs i) = (items cs).rest? i := by
  change dropWidth? Char.utf8Size cs (byteOffset cs i) = dropWidth? (fun _ => 1) cs i
  induction cs generalizing i with
  | nil => cases i <;> simp [dropWidth?]
  | cons c cs ih =>
    cases i with
    | zero => rw [byteOffset_zero, dropWidth?, dropWidth?]
    | succ i =>
      have hpos := c.utf8Size_pos
      obtain ⟨n, hn⟩ : ∃ n, c.utf8Size + byteOffset cs i = n + 1 :=
        Nat.exists_eq_add_of_le' (by omega)
      rw [byteOffset_cons_succ, hn, dropWidth?, dropWidth?, if_pos (by omega), if_pos (by omega),
        ← hn, Nat.add_sub_cancel_left, Nat.add_sub_cancel, ih]

/-- A character is as wide in the text as the step from its offset to the next. -/
theorem byteOffset_succ {cs back : List Char} {i : Nat} {c : Char}
    (h : (Source.items cs).rest? i = some (c :: back)) :
    byteOffset cs i + c.utf8Size = byteOffset cs (i + 1) := by
  obtain ⟨front, hfront, hi⟩ := dropWidth?_eq_some h
  obtain rfl : cs = front ++ c :: back := hfront
  rw [Source.extent_items] at hi
  subst hi
  have hwidths (i : Nat) := byteOffset_append front (c :: back) i
  rw [← Nat.add_zero front.length, hwidths, Nat.add_assoc, Nat.add_assoc, hwidths]
  simp

/-- The list of the characters is embedded in the text by their offsets. -/
theorem Source.embeds_text (cs : List Char) :
    (items cs).Embeds (byteOffset cs) False (text cs) where
  strictMono := strictMono_byteOffset cs
  len_le i := by rw [← byteOffset_length, (strictMono_byteOffset cs).le_iff_le, len_items]
  symbolAt i := by
    rw [symbolAt?, symbolAt?, rest?_byteOffset]
    split
    next hrest => exact .some ⟨rfl, byteOffset_succ hrest⟩
    next => exact .none
  textFrom := False.elim
  textBetween := False.elim
  add := False.elim

/-- The result with positions of another source. -/
def ParseResult.move (φ : Nat → Nat) : ParseResult α → ParseResult α
  | success i a => success (φ i) a
  | failure i es => failure (φ i) (es.map (·.move φ))

theorem ParseResult.ofOutcome_move (φ : Nat → Nat) (s : Sink) (r : Outcome α) :
    ofOutcome (s.move φ) (r.move φ) = (ofOutcome s r).move φ := by
  cases r with
  | ok e a => rfl
  | fail q => simp only [ofOutcome, Outcome.move, move, Sink.farthest_move, Sink.finish_move,
      Option.getD_map]

/-- Let `φ` take the index of a character to its offset. On a text, from `φ i`, a parser that does
not look at positions comes to what it comes to on the list of the characters, from `i`: to the same
value or to a failure as well, with `φ` applied to the position where it ends, to the farthest
position, and to every record and what a report makes of them. -/
theorem Parser.run_text_items {env : Env Char τ} {cs : List Char} {p : Parser Char τ α}
    (henv : env.Movable False) (hp : p.Movable False) :
    let φ := byteOffset cs
    let onItems := { env with source := .items cs }
    let onText := { env with source := .text cs }
    (∀ i ≤ cs.length, φ i = extent Char.utf8Size (cs.take i)) ∧
    (∀ n i s, p.run onText n (φ i) (s.move φ) =
      (p.run onItems n i s).map fun x => (x.1.move φ, x.2.move φ)) ∧
    (∀ s : Sink, (s.move φ).farthest = s.farthest.map φ ∧
      (s.move φ).records = s.records.map (·.move φ) ∧
      (s.move φ).finish = s.finish.map (·.move φ)) ∧
    ∀ n, p.parse? n onText = (p.parse? n onItems).map (·.move φ) := by
  intro φ onItems onText
  have hrun (n i : Nat) (s : State) : p.run onText n (φ i) (s.move φ) =
      (p.run onItems n i s).map fun x => (x.1.move φ, x.2.move φ) := by
    have hitems : onItems.source.Embeds φ False (.text cs) := Source.embeds_text cs
    exact run_moved hitems henv hp n i s
  refine ⟨fun i hi => ?_, hrun, fun s => ?_, fun n => ?_⟩
  · change byteOffset cs i = _
    rw [byteOffset, Nat.sub_eq_zero_of_le hi, Nat.add_zero]
  · exact ⟨Sink.farthest_move s, Sink.records_move s, Sink.finish_move s⟩
  · have h := hrun n 0 {}
    rw [show φ 0 = 0 from byteOffset_zero cs] at h
    simp only [parse?, parseFrom?, Option.map_map]
    change Option.map _ (p.run onText n 0 (State.move φ {})) = _
    rw [h, Option.map_map]
    refine congrArg (Option.map · _) (funext fun x => ?_)
    exact ParseResult.ofOutcome_move φ x.2.sink x.1

/-- A labelled word with characters of one, two and three bytes, which fails at the last. -/
theorem Parser.run_text_items_word :
    let cs := ['a', 'é', '→', 'x']
    let env : Env Char (Empty.elim : Empty → Type) := Env.bare (.items cs)
    let p : Parser Char (Empty.elim : Empty → Type) Unit := label (block () (do
      let _ ← Block.collect (satisfy fun c => c.isAlpha || c == 'é')
      let _ ← Block.step (literal (.string "→y")) false)) "word"
    let t : State := {
      sink := .reached 2 [.unknown 2, .expected 2 "\"→y\""]
      entries := [⟨0, some (.label 0 2 "word")⟩, ⟨2, some (.expected 2 "\"→y\"")⟩,
        ⟨2, some (.unknown 2)⟩] }
    (env.Movable False ∧ p.Movable False ∧ p.run env 5 0 {} = some (.fail 2, t)) ∧
      p.run { env with source := .text cs } 5 0 {} =
        some (.fail 3, t.move (byteOffset cs)) ∧
      (t.move (byteOffset cs)).sink = .reached 3 [.unknown 3, .expected 3 "\"→y\""] := by
  intro cs env p t
  have henv : env.Movable False := by
    intro i
    exact i.elim
  have hp : p.Movable False := by
    refine ⟨⟨trivial, fun _ => ⟨trivial, fun r => ?_⟩⟩, fun φ => ⟨fun _ _ => True, trivial, ?_⟩⟩
    · cases r <;> trivial
    · exact .many fun bs => .perform (fun _ => .ret rfl) fun i => .abort _
  have hitems : p.run env 5 0 {} = some (.fail 2, t) := by decide +kernel
  refine ⟨⟨henv, hp, hitems⟩, ?_, by decide +kernel⟩
  have h : p.run { env with source := .text cs } 5 0 {} =
      (p.run env 5 0 {}).map fun x => (x.1.move (byteOffset cs), x.2.move (byteOffset cs)) :=
    (run_text_items henv hp).2.1 5 0 {}
  rwa [hitems] at h

end Backtrack
