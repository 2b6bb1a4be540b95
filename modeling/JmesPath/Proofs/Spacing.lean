import Mathlib
import JmesPath.Proofs.Grammar.Alongside
import JmesPath.Proofs.Lexing.Spans

/-! # White space between words

* `SamePlace` — places that belong to the same word of two token lists
* `parse_paired` — two token lists with the same words are read as the same tree, or have the
  same fault at the same word
* `compile_respaced` — so have two queries that differ in the white space between words
-/

namespace JmesPath

open Grammar Rules

/-! ## Trees and the places of words -/

/-- The places of the same word in two token lists, or the ends of both. -/
def SamePlace (stop stop' : Nat) (ts ts' : List Located) (position position' : Nat) : Prop :=
  ∃ i, position = place stop (ts.drop i) ∧ position' = place stop' (ts'.drop i)

theorem samePlace_stop (stop stop' : Nat) (ts ts' : List Located) :
    SamePlace stop stop' ts ts' stop stop' := by
  refine ⟨max ts.length ts'.length, ?_, ?_⟩
  · rw [List.drop_eq_nil_of_le (Nat.le_max_left _ _), place]
  · rw [List.drop_eq_nil_of_le (Nat.le_max_right _ _), place]

theorem Grammar.Paired.mono {same same' : Nat → Nat → Prop} {ts ts' : List Located}
    (hsame : ∀ s s', same s s' → same' s s') (h : Paired same ts ts') : Paired same' ts ts' := by
  induction h with
  | nil => exact .nil
  | cons t hs _ ih => exact .cons t (hsame _ _ hs) ih

/-- Token lists with the same words go together word by word. -/
theorem paired_of_words (stop stop' : Nat) {ts ts' : List Located} (h : words ts = words ts') :
    Paired (SamePlace stop stop' ts ts') ts ts' := by
  induction ts generalizing ts' with
  | nil =>
    cases ts' with
    | nil => exact .nil
    | cons t' ts' => cases h
  | cons t ts ih =>
    obtain ⟨start', ts', rfl, hwords⟩ := words_eq_cons h.symm
    have hbehind : ∀ s s', SamePlace stop stop' ts ts' s s' →
        SamePlace stop stop' (t :: ts) (⟨t.token, start'⟩ :: ts') s s' :=
      fun s s' ⟨i, hs, hs'⟩ => ⟨i + 1, hs, hs'⟩
    exact .cons t.token ⟨0, rfl, rfl⟩ ((ih hwords.symm).mono hbehind)

/-- Every fault is the same one in both runs, at places that belong together. -/
def placePairing (same : Nat → Nat → Prop) : Pairing where
  same := same
  faults fault fault' :=
    same fault.position fault'.position ∧ fault' = fault.movedTo fault'.position
  excused _ := False
  moved _ hsame := by
    rw [ParseError.position_movedTo]
    exact ⟨hsame, rfl⟩

section

variable {same : Nat → Nat → Prop} {stop stop' : Nat} (hstop : same stop stop') (limit : Nat)
include hstop

/-- Two parsers with the same levels meet the limit at the same word, too. -/
theorem alongside_expression_climb (n : Nat) :
    (∀ power {ts ts'}, Paired same ts ts' → Alongside (placePairing same)
      (Parser.expression limit stop n power ts) (Parser.expression limit stop' n power ts')) ∧
    (∀ power left {ts ts'}, Paired same ts ts' → Alongside (placePairing same)
      (Parser.climb limit stop n power left ts) (Parser.climb limit stop' n power left ts')) := by
  have htooDeep {n n' : Nat} {α : Type} {s s' : Nat} (hs : same s s') :
      Alongside (placePairing same)
        (.error (.nestingTooDeep limit s) : Except ParseError (Rest Located n α))
        (.error (.nestingTooDeep limit s') : Except ParseError (Rest Located n' α)) :=
    .error ⟨hs, rfl⟩
  induction n with
  | zero =>
    refine ⟨fun _ _ _ hts => htooDeep (hts.place hstop), fun power left ts ts' hts => ?_⟩
    cases hts with
    | nil => exact .ok rfl .nil
    | cons t hs hts =>
      simp only [Parser.climb]
      split
      · exact htooDeep hs
      · exact .ok rfl (.cons t hs hts)
  | succ n ih =>
    obtain ⟨ihexpression, ihclimb⟩ := ih
    have hparts {k : Nat} (power : Nat) : SideBySide (placePairing same) k
        (Parser.expression limit stop n power) (Parser.expression limit stop' n power) :=
      fun hts _ => ihexpression power hts
    refine ⟨fun power ts ts' hts => ?_, fun power left ts ts' hts => ?_⟩
    · cases hts with
      | nil => exact alongside_unexpected hstop .nil
      | cons t hs hts =>
        simp only [Parser.expression]
        refine (alongside_operand hstop hparts t hs hts (Nat.le_refl _)).bind fun hfirst => ?_
        exact (ihclimb power _ hfirst).bind fun h => .ok rfl h
    · cases hts with
      | nil => exact .ok rfl .nil
      | cons t hs hts =>
        simp only [Parser.climb]
        split
        · have hextend := alongside_extend hstop hparts left t hs hts (Nat.le_refl _)
          refine hextend.bind fun hlonger => ?_
          exact (ihclimb power _ hlonger).bind fun h => .ok rfl h
        · exact .ok rfl (.cons t hs hts)

/-- Token lists with the same words are read as the same tree, or have the same fault at
    places that belong together. -/
theorem parse_paired {ts ts' : List Located} (hts : Paired same ts ts') :
    (∃ e, parse limit stop ts = .ok e ∧ parse limit stop' ts' = .ok e) ∨
    ∃ fault fault', parse limit stop ts = .error fault ∧ parse limit stop' ts' = .error fault' ∧
      same fault.position fault'.position ∧ fault' = fault.movedTo fault'.position := by
  have hrun := (alongside_expression_climb hstop limit limit).1 0 hts
  unfold parse
  generalize Parser.expression limit stop limit 0 ts = x at hrun
  generalize Parser.expression limit stop' limit 0 ts' = y at hrun
  cases hrun with
  | @ok r r' hvalue hrest =>
    obtain ⟨e, us, _⟩ := r
    obtain ⟨e', us', _⟩ := r'
    obtain rfl : e = e' := hvalue
    cases hrest with
    | nil => exact .inl ⟨e, rfl, rfl⟩
    | cons t hs hus => exact .inr ⟨_, _, rfl, rfl, hs, rfl⟩
  | error hfaults => exact .inr ⟨_, _, rfl, rfl, hfaults⟩
  | excused _ hexcused => exact hexcused.elim

end

/-! ## Queries -/

/-- Other white space between the words of a query, and around them, changes neither its
    words nor its tree.  A fault of the tree stays at its word. -/
theorem compile_respaced {source source' : List Char} {ts : List Located}
    (htokens : tokenize source = .ok ts)
    (hspaced : Respaced ((spans source).map (WordSpan.text source)) source') :
    ∃ ts', tokenize source' = .ok ts' ∧ words ts' = words ts ∧
      ∀ limit,
        (∃ e, compile limit source = .ok e ∧ compile limit source' = .ok e) ∨
        ∃ fault fault', compile limit source = .error (.parse fault) ∧
          compile limit source' = .error (.parse fault') ∧
          SamePlace source.length source'.length ts ts' fault.position fault'.position ∧
          fault' = fault.movedTo fault'.position := by
  have hwords := Cursor.isWord_spans (Cursor.in_start source) htokens
  obtain ⟨ts', htokens', hsame⟩ :=
    (tokens_iff (Cursor.start source') _).2 (hspaced.spelled hwords)
  refine ⟨ts', htokens', hsame, fun limit => ?_⟩
  have hparse := parse_paired (samePlace_stop source.length source'.length ts ts') limit
    (paired_of_words source.length source'.length hsame.symm)
  have htokenize' : tokenize source' = .ok ts' := htokens'
  unfold compile
  rw [htokens, htokenize']
  rcases hparse with ⟨e, he, he'⟩ | ⟨fault, fault', hfault, hfault', hplace⟩
  · exact .inl ⟨e, by simp only [he], by simp only [he']⟩
  · exact .inr ⟨fault, fault', by simp only [hfault], by simp only [hfault'], hplace⟩

/-- A query with two words that have something between them, and a text with more of it. -/
theorem compile_respaced_of_not :
    tokenize ['!', 'a'] = .ok [⟨.not, 0⟩, ⟨.identifier "a", 1⟩] ∧
    Respaced ((spans ['!', 'a']).map (WordSpan.text ['!', 'a'])) ['\n', '!', ' ', '\t', 'a'] ∧
    ∃ ts', tokenize ['\n', '!', ' ', '\t', 'a'] = .ok ts' ∧
      words ts' = [.not, .identifier "a"] := by
  have htokens : tokenize ['!', 'a'] = .ok [⟨.not, 0⟩, ⟨.identifier "a", 1⟩] := by cbv
  have htexts : (spans ['!', 'a']).map (WordSpan.text ['!', 'a']) = [['!'], ['a']] := by cbv
  have hspaced : Respaced ((spans ['!', 'a']).map (WordSpan.text ['!', 'a']))
      ['\n', '!', ' ', '\t', 'a'] := by
    rw [htexts]
    refine .space rfl (.word ['!'] (fun _ => ⟨' ', rfl, rfl⟩) (.space rfl (.space rfl ?_)))
    exact .word ['a'] (fun h => absurd rfl h) .nil
  obtain ⟨ts', htokens', hwords, -⟩ := compile_respaced htokens hspaced
  exact ⟨htokens, hspaced, ts', htokens', hwords⟩

end JmesPath
