import JmesPath.Proofs.Lexing.Partition

/-! # Calls on one query

A reader of tokens can be called again after each token, after each fault and at the end.

* `Cursor.after` — the place after so many calls
* `word_of_unknown` — a character that starts no word is not taken, and only such a one is not
* `next_cases` — what one call can do: meet the end, meet such a character, or take a word
* `Stops.answer` — a call that takes nothing is answered in the same way for ever
* `exists_final` — the calls before the last answer take a character each
* `streaming_settles` — all together, for the calls on a query
-/

namespace JmesPath

namespace Scanner

/-- Quoted text does not meet an unknown character, unless the text between the quotes does. -/
theorem result_quotedWord {quote d : Char} {escapable : List Char} {start position : Nat}
    {read : List Char → Except LexError Token} {cs : List Char}
    (hread : ∀ inner, read inner ≠ .error (.unknownCharacter d position)) :
    (quotedWord quote escapable start read cs).result ≠
      .error (.unknownCharacter d position) := by
  unfold quotedWord
  split
  · exact hread _
  · intro h
    cases h

/-- A character that is unknown is the one at hand, and it is not taken. -/
theorem word_of_unknown {start position : Nat} {c d : Char} {cs : List Char}
    (h : (word start c cs).result = .error (.unknownCharacter d position)) :
    word start c cs = ⟨.error (.unknownCharacter c start), 0⟩ := by
  have hscanned := scanned_word start c cs
  generalize word start c cs = w at h hscanned
  cases hscanned with
  | name | mark => cases h
  | number negative digits =>
    simp only [wholeNumber] at h
    generalize (if negative then _ else _ : Int) = i at h
    split at h <;> cases h
  | quotedName hread =>
    refine absurd h (result_quotedWord fun inner hinner => ?_)
    rcases hread inner with ⟨name, -, hok⟩ | ⟨e, he⟩
    · cases hok.symm.trans hinner
    · cases he.symm.trans hinner
  | rawString =>
    refine absurd h (result_quotedWord fun inner hinner => ?_)
    cases hinner
  | literal hread =>
    refine absurd h (result_quotedWord fun inner hinner => ?_)
    rcases hread inner with ⟨name, -, hok⟩ | ⟨e, he⟩
    · cases hok.symm.trans hinner
    · cases he.symm.trans hinner
  | unknown => rfl

end Scanner

namespace Cursor

/-! ## One call -/

theorem skipSpace_skipSpace (c : Cursor) : c.skipSpace.skipSpace = c.skipSpace :=
  Rules.skipSpace_eq_self (Rules.head_skipSpace c)

theorem next_skipSpace (c : Cursor) : c.skipSpace.next = c.next := by
  simp only [next, skipSpace_skipSpace]

/-- What one call can do: meet the end, meet a character that starts no word, or take a word,
    which may be faulty.  White space is skipped in each case. -/
theorem next_cases (c : Cursor) :
    (c.skipSpace.rest = [] ∧ c.next = (.ok none, c.skipSpace)) ∨
    (∃ d, c.next = (.error (.unknownCharacter d c.skipSpace.position), c.skipSpace)) ∨
    ∃ n, 0 < n ∧ n ≤ c.skipSpace.rest.length ∧ c.next.2 = c.skipSpace.advance n ∧
      c.next.1 ≠ .ok none ∧ ∀ d p, c.next.1 ≠ .error (.unknownCharacter d p) := by
  cases hrest : c.skipSpace.rest with
  | nil => exact .inl ⟨rfl, Rules.next_of_end hrest⟩
  | cons first others =>
    have hnext := Rules.next_of_word hrest
    have hlength := Scanner.word_length_le c.skipSpace.position first others
    rcases Scanner.word_length_pos c.skipSpace.position first others with hpos | hunknown
    · -- A word that takes a character is no unknown one, since that takes none.
      refine .inr (.inr ⟨_, hpos, hlength, by rw [hnext], ?_, fun d p hfault => ?_⟩)
      · rw [ne_eq, Rules.next_eq_none_iff, hrest]
        nofun
      · rw [hnext] at hfault
        cases hresult : (Scanner.word c.skipSpace.position first others).result with
        | ok t => simp [hresult, Except.map] at hfault
        | error fault =>
          simp only [hresult, Except.map, Except.error.injEq] at hfault
          rw [hfault] at hresult
          rw [Scanner.word_of_unknown hresult] at hpos
          exact absurd hpos (Nat.lt_irrefl 0)
    · refine .inr (.inl ⟨first, ?_⟩)
      rw [hnext, hunknown]
      rfl

/-- Whether a call meets the end or a character that starts no word. -/
def Stops (c : Cursor) : Prop :=
  c.next.1 = .ok none ∨ ∃ d p, c.next.1 = .error (.unknownCharacter d p)

theorem Stops.next {c : Cursor} (h : c.Stops) : c.next.2 = c.skipSpace := by
  rcases next_cases c with ⟨-, hnext⟩ | ⟨d, hnext⟩ | ⟨n, -, -, -, hnone, hunknown⟩
  · rw [hnext]
  · rw [hnext]
  · rcases h with h | ⟨d, p, h⟩
    · exact absurd h hnone
    · exact absurd h (hunknown d p)

theorem skipSpace_position_le (c : Cursor) : c.position ≤ c.skipSpace.position :=
  Nat.le_add_right _ _

/-- A call that does not stop takes a character. -/
theorem position_lt_next {c : Cursor} (h : ¬ c.Stops) : c.position < c.next.2.position := by
  rcases next_cases c with ⟨-, hnext⟩ | ⟨d, hnext⟩ | ⟨n, hpos, -, hnext, -, -⟩
  · exact absurd (.inl (by rw [hnext])) h
  · exact absurd (.inr ⟨d, _, by rw [hnext]⟩) h
  · rw [hnext]
    exact (skipSpace_position_le c).trans_lt (Nat.lt_add_of_pos_right hpos)

theorem length_next_lt {c : Cursor} (h : ¬ c.Stops) : c.next.2.rest.length < c.rest.length := by
  have hspace : c.skipSpace.rest.length ≤ c.rest.length :=
    advance_rest_length c _ ▸ Nat.sub_le _ _
  rcases next_cases c with ⟨-, hnext⟩ | ⟨d, hnext⟩ | ⟨n, hpos, hn, hnext, -, -⟩
  · exact absurd (.inl (by rw [hnext])) h
  · exact absurd (.inr ⟨d, _, by rw [hnext]⟩) h
  · rw [hnext, advance_rest_length]
    omega

theorem position_le_next (c : Cursor) : c.position ≤ c.next.2.position := by
  by_cases h : c.Stops
  · rw [h.next]
    exact skipSpace_position_le c
  · exact Nat.le_of_lt (position_lt_next h)

/-- The place stands in front of the rest of a query, and not behind its end. -/
structure Within (source : List Char) (c : Cursor) : Prop where
  rest : c.In source
  position : c.position ≤ source.length

theorem within_start (source : List Char) : (start source).Within source :=
  ⟨in_start source, Nat.zero_le _⟩

theorem Within.advance {source : List Char} {c : Cursor} (h : c.Within source) {n : Nat}
    (hn : n ≤ c.rest.length) : (c.advance n).Within source := by
  refine ⟨h.rest.advance n, ?_⟩
  cases n with
  | zero => exact h.position
  | succ n => exact h.rest.advance_le (Nat.succ_pos n) hn

theorem Within.next {source : List Char} {c : Cursor} (h : c.Within source) :
    c.next.2.Within source := by
  have hspace : c.skipSpace.Within source := h.advance (List.takeWhile_sublist _).length_le
  rcases next_cases c with ⟨-, hnext⟩ | ⟨d, hnext⟩ | ⟨n, -, hn, hnext, -, -⟩
  · rwa [hnext]
  · rwa [hnext]
  · rw [hnext]
    exact hspace.advance hn

/-- There is no next token if there is only white space left in the query. -/
theorem Within.next_eq_none_iff {source : List Char} {c : Cursor} (h : c.Within source) :
    c.next.1 = .ok none ↔ ∀ d ∈ source.drop c.position, Scanner.isSpace d := by
  have hrest : c.rest = source.drop c.position := h.rest
  rw [Rules.next_eq_none_iff, Rules.skipSpace_rest, List.dropWhile_eq_nil_iff, hrest]

/-! ## Call after call -/

/-- The place after so many calls, whatever the answers were. -/
def after (c : Cursor) : Nat → Cursor
  | 0 => c
  | n + 1 => (c.after n).next.2

/-- What a call is answered; the first call has the number zero. -/
def answer (c : Cursor) (n : Nat) : Except LexError (Option Located) := (c.after n).next.1

theorem after_add (c : Cursor) (m n : Nat) : (c.after m).after n = c.after (m + n) := by
  induction n with
  | zero => rfl
  | succ n ih => rw [after, ih, ← Nat.add_assoc, after]

theorem answer_add (c : Cursor) (m n : Nat) : (c.after m).answer n = c.answer (m + n) := by
  rw [answer, after_add, answer]

theorem Within.after {source : List Char} {c : Cursor} (h : c.Within source) (n : Nat) :
    (c.after n).Within source := by
  induction n with
  | zero => exact h
  | succ n ih => exact ih.next

/-- Once a call stops, all later ones are answered in the same way. -/
theorem Stops.answer {c : Cursor} (h : c.Stops) (n : Nat) : c.answer n = c.next.1 := by
  cases n with
  | zero => rfl
  | succ n =>
    have hafter : c.after (n + 1) = c.skipSpace := by
      induction n with
      | zero => exact h.next
      | succ n ih => rw [after, ih, next_skipSpace, h.next]
    rw [Cursor.answer, hafter, next_skipSpace]

theorem Stops.answer_after {c : Cursor} {m n : Nat} (h : (c.after m).Stops) (hmn : m ≤ n) :
    c.answer n = c.answer m := by
  obtain ⟨k, rfl⟩ := Nat.exists_eq_add_of_le hmn
  rw [← answer_add, h.answer, Cursor.answer]

/-- The calls that are not given the last answer take a character each. -/
theorem exists_final (c : Cursor) :
    ∃ final, ∃ m ≤ c.rest.length, ∀ n, m ≤ n → c.answer n = final := by
  -- The induction is on the characters that are left: a call takes one of them, or it stops, and
  -- then all later ones are answered like it.
  induction hlength : c.rest.length using Nat.strongRecOn generalizing c with
  | _ length ih =>
    subst hlength
    by_cases h : c.Stops
    · exact ⟨_, 0, Nat.zero_le _, fun n _ => h.answer n⟩
    · obtain ⟨final, m, hm, hfinal⟩ := ih _ (length_next_lt h) c.next.2 rfl
      refine ⟨final, m + 1, hm.trans_lt (length_next_lt h), fun n hn => ?_⟩
      obtain ⟨k, rfl⟩ := Nat.exists_eq_add_of_le hn
      have hafter : c.answer (1 + (m + k)) = c.next.2.answer (m + k) := (answer_add c 1 _).symm
      rw [Nat.add_comm m 1, Nat.add_assoc, hafter]
      exact hfinal _ (Nat.le_add_right m k)

end Cursor

/-! ## The calls on a query -/

/-- Where a call on a query starts to read, after all calls before it. -/
def callPlace (source : List Char) (n : Nat) : Nat := ((Cursor.start source).after n).position

/-- What a call on a query is answered. -/
def callAnswer (source : List Char) (n : Nat) : Except LexError (Option Located) :=
  (Cursor.start source).answer n

/-- However often a query is read on, also behind faults: the place never goes back or leaves the
    query; each token, and each fault but an unknown character, takes a character; the end is met
    when there is only white space left, and stays met; an unknown character stays, too.  So
    there is one answer that all calls get but as many as there are characters. -/
theorem streaming_settles (source : List Char) :
    (∀ n, callPlace source n ≤ callPlace source (n + 1) ∧ callPlace source n ≤ source.length) ∧
    (∀ n t, callAnswer source n = .ok (some t) →
      callPlace source n < callPlace source (n + 1)) ∧
    (∀ n fault, callAnswer source n = .error fault → (∀ d p, fault ≠ .unknownCharacter d p) →
      callPlace source n < callPlace source (n + 1)) ∧
    (∀ n, callAnswer source n = .ok none ↔
      ∀ d ∈ source.drop (callPlace source n), Scanner.isSpace d) ∧
    (∀ m n, m ≤ n → callAnswer source m = .ok none → callAnswer source n = .ok none) ∧
    (∀ m n d p, m ≤ n → callAnswer source m = .error (.unknownCharacter d p) →
      callAnswer source n = .error (.unknownCharacter d p)) ∧
    ∃ final, ∃ m ≤ source.length, ∀ n, m ≤ n → callAnswer source n = final := by
  have hwithin (n : Nat) := (Cursor.within_start source).after n
  refine ⟨fun n => ⟨Cursor.position_le_next _, (hwithin n).position⟩,
    fun n t h => Cursor.position_lt_next ?_, fun n fault h hfault => Cursor.position_lt_next ?_,
    fun n => (hwithin n).next_eq_none_iff, fun m n hmn h => ?_, fun m n d p hmn h => ?_,
    Cursor.exists_final (Cursor.start source)⟩
  · rintro (hnone | ⟨d, p, hunknown⟩)
    · cases h.symm.trans hnone
    · cases h.symm.trans hunknown
  · rintro (hnone | ⟨d, p, hunknown⟩)
    · cases h.symm.trans hnone
    · exact hfault d p (Except.error.inj (h.symm.trans hunknown))
  · exact (Cursor.Stops.answer_after (.inl h) hmn).trans h
  · exact (Cursor.Stops.answer_after (.inr ⟨d, p, h⟩) hmn).trans h

end JmesPath
