import JmesPath.Program
import JmesPath.Proofs.Grammar.Locality
import JmesPath.Proofs.Lexing.Words

/-! # Texts and their tokens

* `Spelled` — a text is split into these tokens
* `Spelled.append_of_endsWord` — texts behind each other are split apart from each other
* `tokens_iff` — the tokens of a query are those that its text spells
* `compile_eq_ok_iff` — a text compiles to a tree if it spells tokens that are read as it
* `compile_unique` — the tree of a text does not depend on the limit
-/

namespace JmesPath.Rules

open Scanner

/-- A text is split into tokens.  No word of it is faulty. -/
inductive Spelled : List Char → List Token → Prop
  | nil : Spelled [] []
  | space {c : Char} {cs : List Char} {ts : List Token} :
      isSpace c → Spelled cs ts → Spelled (c :: cs) ts
  | word {c : Char} {cs : List Char} {n : Nat} {t : Token} {ts : List Token} :
      Scanner.word 0 c cs = ⟨.ok t, n + 1⟩ → Spelled (cs.drop n) ts →
      Spelled (c :: cs) (t :: ts)

/-- White space starts no word. -/
theorem word_of_isSpace {c : Char} (hc : isSpace c) (start : Nat) (cs : List Char) :
    Scanner.word start c cs = ⟨.error (.unknownCharacter c start), 0⟩ := by
  simp only [isSpace, Bool.or_eq_true, beq_iff_eq] at hc
  rcases hc with ((rfl | rfl) | rfl) | rfl <;> rfl

theorem word_length_pos_of_ok {start n : Nat} {c : Char} {cs : List Char} {t : Token}
    (h : Scanner.word start c cs = ⟨.ok t, n⟩) : 0 < n := by
  rcases word_length_pos start c cs with hpos | hfault
  · rwa [h] at hpos
  · cases h.symm.trans hfault

theorem spelled_space_iff {c : Char} (hc : isSpace c) {cs : List Char} {ts : List Token} :
    Spelled (c :: cs) ts ↔ Spelled cs ts := by
  refine ⟨fun h => ?_, .space hc⟩
  cases h with
  | space _ h => exact h
  | word h _ =>
    rw [word_of_isSpace hc] at h
    cases h

theorem spelled_dropWhile_iff {cs : List Char} {ts : List Token} :
    Spelled (cs.dropWhile isSpace) ts ↔ Spelled cs ts := by
  induction cs with
  | nil => rfl
  | cons c cs ih =>
    rw [List.dropWhile_cons]
    split
    · next hc => rw [ih, spelled_space_iff hc]
    · rfl

/-- Texts behind each other are split apart from each other, if the second one does not go
    on the last word of the first one. -/
theorem Spelled.append_of_endsWord {cs ds : List Char} {ts us : List Token} (h : Spelled cs ts)
    (hds : ∀ t ∈ ts.getLast?, EndsWord t ds) (h' : Spelled ds us) :
    Spelled (cs ++ ds) (ts ++ us) := by
  induction h with
  | nil => exact h'
  | space hc _ ih => exact .space hc (ih hds)
  | @word c cs n t ts hword hrest ih =>
    have hlength := word_length_le 0 c cs
    rw [hword] at hlength
    replace hlength := Nat.le_of_succ_le_succ hlength
    have hdrop : (cs ++ ds).drop n = cs.drop n ++ ds := List.drop_append_of_le_length hlength
    have hends : cs.drop n = [] → EndsWord t ds := by
      intro hnil
      rw [hnil] at hrest
      cases hrest
      exact hds t rfl
    have htail : ∀ u ∈ ts.getLast?, EndsWord u ds := by
      intro u hu
      refine hds u ?_
      rw [List.getLast?_cons, Option.mem_def.1 hu]
      rfl
    exact .word (word_append_of_endsWord hword hends 0) (hdrop ▸ ih htail)

theorem Spelled.append {cs ds : List Char} {ts us : List Token} (hds : Breaks ds)
    (h : Spelled cs ts) (h' : Spelled ds us) : Spelled (cs ++ ds) (ts ++ us) :=
  h.append_of_endsWord (fun t _ => hds.endsWord t) h'

/-- White space continues no word. -/
theorem breaks_of_isSpace {c : Char} (hc : isSpace c) (cs : List Char) : Breaks (c :: cs) := by
  rw [breaks_cons]
  simp only [isSpace, Bool.or_eq_true, beq_iff_eq] at hc
  rcases hc with ((rfl | rfl) | rfl) | rfl <;> exact ⟨rfl, by decide⟩

theorem spelled_of_isWord {t : Token} {text : List Char} (h : IsWord t text) :
    Spelled text [t] := by
  obtain ⟨c, cs, rfl, hword⟩ := h
  refine .word hword ?_
  rw [List.drop_length]
  exact .nil

/-! ## The tokens of a query -/

section

variable {c c' : Cursor}

theorem skipSpace_rest (c : Cursor) : c.skipSpace.rest = c.rest.dropWhile isSpace := by
  have hsplit := List.takeWhile_append_dropWhile (p := isSpace) (l := c.rest)
  calc c.skipSpace.rest = c.rest.drop (c.rest.takeWhile isSpace).length := rfl
    _ = (c.rest.takeWhile isSpace ++ c.rest.dropWhile isSpace).drop
          (c.rest.takeWhile isSpace).length := by rw [hsplit]
    _ = c.rest.dropWhile isSpace := List.drop_left

theorem head_skipSpace (c : Cursor) : ∀ first ∈ c.skipSpace.rest.head?, isSpace first = false := by
  intro first hfirst
  have hhead := List.head?_dropWhile_not isSpace c.rest
  rwa [← skipSpace_rest, Option.mem_def.1 hfirst] at hhead

theorem next_of_end (h : c.skipSpace.rest = []) : c.next = (.ok none, c.skipSpace) := by
  simp only [Cursor.next, h]

theorem next_of_word {first : Char} {others : List Char}
    (h : c.skipSpace.rest = first :: others) :
    c.next = ((word c.skipSpace.position first others).result.map
        fun t => some ⟨t, c.skipSpace.position⟩,
      c.skipSpace.advance (word c.skipSpace.position first others).length) := by
  simp only [Cursor.next, h]

/-- There is no next token if there is nothing but white space left. -/
theorem next_eq_none_iff : c.next.1 = .ok none ↔ c.skipSpace.rest = [] := by
  constructor
  · intro h
    cases hrest : c.skipSpace.rest with
    | nil => rfl
    | cons first others =>
      rw [next_of_word hrest] at h
      cases hresult : (word c.skipSpace.position first others).result <;>
        simp [hresult, Except.map] at h
  · intro h
    rw [next_of_end h]

theorem tokens_of_end (h : c.next = (.ok none, c')) : c.tokens = .ok [] := by
  rw [Cursor.tokens]
  split
  · rfl
  · next h' => cases h.symm.trans h'
  · next h' => cases h.symm.trans h'

theorem tokens_of_fault {e : LexError} (h : c.next = (.error e, c')) : c.tokens = .error e := by
  rw [Cursor.tokens]
  split
  · next h' => cases h.symm.trans h'
  · next h' => cases h.symm.trans h'
  · next h' => cases h.symm.trans h'; rfl

theorem tokens_of_some {t : Located} (h : c.next = (.ok (some t), c')) :
    c.tokens = c'.tokens.map (t :: ·) := by
  rw [Cursor.tokens]
  split
  · next h' => cases h.symm.trans h'
  · next h' =>
    cases h.symm.trans h'
    cases c'.tokens <;> rfl
  · next h' => cases h.symm.trans h'

end

/-- A place in front of something else than white space stays. -/
theorem skipSpace_eq_self {c : Cursor} (h : ∀ first ∈ c.rest.head?, isSpace first = false) :
    c.skipSpace = c := by
  obtain ⟨position, rest⟩ := c
  cases rest with
  | nil => rfl
  | cons first others => simp [Cursor.skipSpace, Cursor.advance, h first rfl]

theorem skipSpace_of_head (position : Nat) {first : Char} (h : isSpace first = false)
    (others : List Char) :
    Cursor.skipSpace ⟨position, first :: others⟩ = ⟨position, first :: others⟩ :=
  skipSpace_eq_self (by simpa using h)

/-- A word is read where it stands, up to text that does not go on it. -/
theorem next_of_isWord {t : Token} {text rest : List Char} (h : IsWord t text)
    (hrest : Breaks rest) (position : Nat) :
    Cursor.next ⟨position, text ++ rest⟩ =
      (.ok (some ⟨t, position⟩), ⟨position + text.length, rest⟩) := by
  obtain ⟨first, others, rfl, hword⟩ := h
  have hspace : isSpace first = false := by
    rw [← Bool.not_eq_true]
    intro hspace
    rw [word_of_isSpace hspace] at hword
    cases hword
  have hskip := skipSpace_of_head position hspace (others ++ rest)
  have hfirst : (Cursor.skipSpace ⟨position, first :: others ++ rest⟩).rest =
      first :: (others ++ rest) := congrArg Cursor.rest hskip
  have hdrop : (first :: others ++ rest).drop (others.length + 1) = rest := List.drop_left
  rw [next_of_word hfirst, List.cons_append, hskip, word_append hrest hword position]
  simp only [Cursor.advance, ← List.cons_append, hdrop]
  rfl

/-- A text that is one word gives one token. -/
theorem tokens_of_isWord {t : Token} {text : List Char} (h : IsWord t text) (position : Nat) :
    Cursor.tokens ⟨position, text⟩ = .ok [⟨t, position⟩] := by
  have hnext := next_of_isWord h breaks_nil position
  rw [List.append_nil] at hnext
  rw [tokens_of_some hnext, tokens_of_end (next_of_end rfl)]
  rfl

/-- Tokens are read one by one: there is none left, or a word is read and the others stand
    behind it. -/
theorem tokens_eq_ok {c : Cursor} {ts : List Located} (h : c.tokens = .ok ts) :
    c.next = (.ok none, c.skipSpace) ∧ ts = [] ∨
    ∃ first others t n ts', c.skipSpace.rest = first :: others ∧
      word c.skipSpace.position first others = ⟨.ok t, n⟩ ∧
      c.next = (.ok (some ⟨t, c.skipSpace.position⟩), c.skipSpace.advance n) ∧
      (c.skipSpace.advance n).tokens = .ok ts' ∧ ts = ⟨t, c.skipSpace.position⟩ :: ts' := by
  cases hrest : c.skipSpace.rest with
  | nil =>
    have hnext := next_of_end hrest
    rw [tokens_of_end hnext] at h
    cases h
    exact .inl ⟨hnext, rfl⟩
  | cons first others =>
    have hnext := next_of_word hrest
    cases hword : word c.skipSpace.position first others with
    | mk result n =>
    rw [hword] at hnext
    cases result with
    | error e =>
      rw [tokens_of_fault hnext] at h
      cases h
    | ok t =>
      rw [tokens_of_some hnext] at h
      cases htail : (c.skipSpace.advance n).tokens with
      | error e => rw [htail] at h; cases h
      | ok ts' =>
        rw [htail] at h
        cases h
        exact .inr ⟨first, others, t, n, ts', rfl, hword, hnext, htail, rfl⟩

/-- The tokens of a query from a place on are those that the rest of its text spells. -/
theorem tokens_iff (c : Cursor) (ts : List Token) :
    (∃ ls, c.tokens = .ok ls ∧ words ls = ts) ↔ Spelled c.rest ts := by
  -- By the length of the rest: a word takes characters, white space may take some.
  induction hlength : c.rest.length using Nat.strongRecOn generalizing c ts with
  | _ length ih =>
    subst hlength
    rw [← spelled_dropWhile_iff, ← skipSpace_rest]
    cases hrest : c.skipSpace.rest with
    | nil =>
      rw [tokens_of_end (next_of_end hrest)]
      constructor
      · rintro ⟨ls, hls, rfl⟩
        cases hls
        exact .nil
      · intro h
        cases h
        exact ⟨[], rfl, rfl⟩
    | cons first others =>
      have hnext := next_of_word hrest
      have hspace : isSpace first = false := head_skipSpace c first (by rw [hrest]; rfl)
      cases hword : word c.skipSpace.position first others with
      | mk result length =>
      rw [hword] at hnext
      cases result with
      | error e =>
        rw [tokens_of_fault hnext]
        refine iff_of_false (fun ⟨ls, hls, _⟩ => by cases hls) fun h => ?_
        cases h with
        | space hc _ => rw [hspace] at hc; cases hc
        | word hw _ =>
          have := word_append breaks_nil hw c.skipSpace.position
          rw [List.append_nil, hword] at this
          cases this
      | ok t =>
        obtain ⟨n, rfl⟩ := Nat.exists_eq_add_one.2 (word_length_pos_of_ok hword)
        -- `Spelled` reads every word as if it stood at the start.
        have hword0 := word_append breaks_nil hword 0
        rw [List.append_nil] at hword0
        have hothers : (c.skipSpace.advance (n + 1)).rest = others.drop n := by
          rw [Cursor.advance, hrest, List.drop_succ_cons]
        have ihrest (us : List Token) := ih _ (Cursor.next_length_lt hnext) _ us rfl
        rw [tokens_of_some hnext]
        constructor
        · rintro ⟨ls, hls, rfl⟩
          cases htail : (c.skipSpace.advance (n + 1)).tokens with
          | error e => rw [htail] at hls; cases hls
          | ok ls' =>
            rw [htail] at hls
            cases hls
            exact .word hword0 (hothers ▸ (ihrest _).1 ⟨ls', htail, rfl⟩)
        · intro h
          cases h with
          | space hc _ => rw [hspace] at hc; cases hc
          | word hw htail =>
            cases hw.symm.trans hword0
            obtain ⟨ls, hls, rfl⟩ := (ihrest _).2 (hothers ▸ htail)
            exact ⟨_ :: ls, by rw [hls]; rfl, rfl⟩

/-- A text compiles to a tree if it spells tokens that the rules read as the tree. -/
theorem compile_eq_ok_iff {limit : Nat} {source : List Char} {e : Expr} :
    compile limit source = .ok e ↔
      ∃ ts, Spelled source ts ∧ Expression limit 0 ts e [] := by
  have htokens (ts : List Token) : (∃ ls, tokenize source = .ok ls ∧ words ls = ts) ↔
      Spelled source ts := tokens_iff (Cursor.start source) ts
  simp only [← htokens, compile]
  cases tokenize source with
  | error fault => simp
  | ok ls =>
    have hparse : (∃ ts, (∃ ls', .ok ls = (.ok ls' : Except LexError _) ∧ words ls' = ts) ∧
        Expression limit 0 ts e []) ↔ parse limit source.length ls = .ok e := by
      rw [parse_eq_ok_iff]
      constructor
      · rintro ⟨_, ⟨ls', hls, rfl⟩, h⟩
        cases hls
        exact h
      · intro h
        exact ⟨_, ⟨ls, rfl, rfl⟩, h⟩
    rw [hparse]
    cases hp : parse limit source.length ls <;> simp [hp]

theorem compile_mono {limit limit' : Nat} (hlimit : limit ≤ limit') {source : List Char}
    {e : Expr} (h : compile limit source = .ok e) : compile limit' source = .ok e := by
  obtain ⟨ts, hspelled, hread⟩ := compile_eq_ok_iff.1 h
  exact compile_eq_ok_iff.2 ⟨ts, hspelled, expression_mono hlimit hread⟩

/-- The tree of a text does not depend on the limit under which it compiles. -/
theorem compile_unique {limit limit' : Nat} {source : List Char} {e e' : Expr}
    (h : compile limit source = .ok e) (h' : compile limit' source = .ok e') : e = e' := by
  have hmax := compile_mono (Nat.le_max_left limit limit') h
  have hmax' := compile_mono (Nat.le_max_right limit limit') h'
  exact Except.ok.inj (hmax.symm.trans hmax')

end JmesPath.Rules
