import Mathlib.Data.List.Forall2
import JmesPath.Proofs.Lexing.Spelling

/-! # The texts of tokens

* `WordSpan` — a part of a text; `spans` gives the parts of a query that its tokens are read from
* `isWord_spans` — each of these parts is one word on its own
* `Respaced` — words put behind each other with white space between them
* `Respaced.spelled` — they are split apart again
-/

namespace JmesPath

/-- A part of a text, from a place up to another one. -/
structure WordSpan where
  start : Nat
  stop : Nat
  deriving DecidableEq

def WordSpan.text (source : List Char) (span : WordSpan) : List Char :=
  (source.drop span.start).take (span.stop - span.start)

/-- The parts of a query that its tokens are read from.  Each one ends where reading goes
    on. -/
def Cursor.spans (c : Cursor) : List WordSpan :=
  match _h : c.next with
  | (.ok (some t), c') => ⟨t.start, c'.position⟩ :: spans c'
  | _ => []
termination_by c.rest.length
decreasing_by exact next_length_lt ‹_›

def spans (source : List Char) : List WordSpan := (Cursor.start source).spans

namespace Cursor

theorem spans_of_end {c c' : Cursor} (h : c.next = (.ok none, c')) : c.spans = [] := by
  rw [spans]
  split
  · next h' => cases h.symm.trans h'
  · rfl

theorem spans_of_some {c c' : Cursor} {t : Located} (h : c.next = (.ok (some t), c')) :
    c.spans = ⟨t.start, c'.position⟩ :: c'.spans := by
  rw [spans]
  split
  · next h' => cases h.symm.trans h'; rfl
  · next hother => exact absurd h (hother _ _)

/-- The place stands in front of the rest of a query. -/
def In (source : List Char) (c : Cursor) : Prop := c.rest = source.drop c.position

theorem in_start (source : List Char) : (start source).In source := rfl

theorem In.advance {source : List Char} {c : Cursor} (h : c.In source) (count : Nat) :
    (c.advance count).In source := by
  have hrest : c.rest = source.drop c.position := h
  show c.rest.drop count = source.drop (c.position + count)
  rw [hrest, List.drop_drop]

theorem In.skipSpace {source : List Char} {c : Cursor} (h : c.In source) :
    c.skipSpace.In source :=
  h.advance _

/-- The text between two places of a reading. -/
theorem In.text_advance {source : List Char} {c : Cursor} (h : c.In source) (count : Nat) :
    WordSpan.text source ⟨c.position, (c.advance count).position⟩ = c.rest.take count := by
  have hrest : c.rest = source.drop c.position := h
  simp [WordSpan.text, Cursor.advance, hrest]

/-- What the tokens from a place on are read from are words that stand for them. -/
theorem isWord_spans {source : List Char} {c : Cursor} {ts : List Located} (hc : c.In source)
    (h : c.tokens = .ok ts) :
    List.Forall₂ Scanner.IsWord (Rules.words ts) (c.spans.map (WordSpan.text source)) := by
  induction ts generalizing c with
  | nil =>
    rcases Rules.tokens_eq_ok h with ⟨hnext, -⟩ | ⟨_, _, _, _, _, _, _, _, _, hts⟩
    · rw [spans_of_end hnext]
      exact .nil
    · cases hts
  | cons t ts ih =>
    rcases Rules.tokens_eq_ok h with ⟨-, hts⟩ |
      ⟨first, others, t, n, ts, hrest, hword, hnext, htail, hts⟩
    · cases hts
    · cases hts
      rw [spans_of_some hnext]
      refine .cons ?_ (ih (hc.skipSpace.advance n) htail)
      rw [hc.skipSpace.text_advance, hrest]
      exact Scanner.isWord_take hword

end Cursor

/-- Words put behind each other, with white space between them and any white space around
    them. -/
inductive Respaced : List (List Char) → List Char → Prop
  | nil : Respaced [] []
  | space {c : Char} {ws : List (List Char)} {text : List Char} :
      Scanner.isSpace c → Respaced ws text → Respaced ws (c :: text)
  | word (w : List Char) {ws : List (List Char)} {text : List Char} :
      (ws ≠ [] → ∃ c ∈ text.head?, Scanner.isSpace c) → Respaced ws text →
      Respaced (w :: ws) (w ++ text)

/-- Words with white space between them are split into what they stand for. -/
theorem Respaced.spelled {ts : List Token} {ws : List (List Char)} {text : List Char}
    (hws : List.Forall₂ Scanner.IsWord ts ws) (h : Respaced ws text) :
    Rules.Spelled text ts := by
  induction h generalizing ts with
  | nil =>
    cases hws
    exact .nil
  | space hc _ ih => exact .space hc (ih hws)
  | @word w ws text hspace h ih =>
    cases hws with
    | @cons t _ ts _ hw hws =>
      have hbreaks : Scanner.Breaks text := by
        cases h with
        | nil => exact Scanner.breaks_nil
        | space hc _ => exact Rules.breaks_of_isSpace hc _
        | word v _ _ =>
          obtain ⟨c, hhead, hc⟩ := hspace (List.cons_ne_nil _ _)
          obtain ⟨rest, hrest⟩ := List.head?_eq_some_iff.1 hhead
          rw [hrest]
          exact Rules.breaks_of_isSpace hc rest
      exact (Rules.spelled_of_isWord hw).append hbreaks (ih hws)

end JmesPath
